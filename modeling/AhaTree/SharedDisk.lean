import AhaTree.CompactionContent

/-!
# Many LSMTs on one disk

The root LSMT and the buffers of all nodes write their tables to one directory
and take the numbers of new files from one counter.  An LSMT is looked at
together with the disk as it is at the time.  A compaction of one of them writes
under new numbers only, and the files it retires are its own.
-/

namespace AhaTree

open Lsmt

/-- The table files, and the last number given to one. -/
structure Disk where
  tables : Nat → List Entry
  fileId : Nat

namespace Disk

def removeFiles (dead : List Nat) (disk : Disk) : Disk :=
  { disk with tables := fun number => if dead.contains number then [] else disk.tables number }

/-- Only tables under new numbers have been written. -/
structure Extends (disk later : Disk) : Prop where
  fileId : disk.fileId ≤ later.fileId
  tables : ∀ number ≤ disk.fileId, later.tables number = disk.tables number

theorem Extends.refl (disk : Disk) : Extends disk disk :=
  ⟨le_rfl, fun _ _ => rfl⟩

theorem Extends.trans {disk later last : Disk} (first : Extends disk later)
    (second : Extends later last) : Extends disk last where
  fileId := first.fileId.trans second.fileId
  tables number old :=
    (second.tables number (old.trans first.fileId)).trans (first.tables number old)

end Disk

namespace Lsmt

/-- The LSMT with the table files as they are. -/
def onDisk (disk : Disk) (lsmt : Lsmt) : Lsmt :=
  { lsmt with
    tables := disk.tables
    fileId := disk.fileId }

/-- The table files as the LSMT leaves them. -/
def disk (lsmt : Lsmt) : Disk := ⟨lsmt.tables, lsmt.fileId⟩

/-- The files of the LSMT are on both disks. -/
structure Kept (lsmt : Lsmt) (disk later : Disk) : Prop where
  fileId : disk.fileId ≤ later.fileId
  tables : ∀ level, ∀ file ∈ lsmt.files level,
    later.tables file.number = disk.tables file.number

/-- No file of a level is obsolete. -/
def Retired (lsmt : Lsmt) : Prop :=
  ∀ number ∈ lsmt.obsoleteFiles, lsmt.Absent number ∧ number ≤ lsmt.fileId

end Lsmt

section Kept

variable {lsmt : Lsmt} {disk later : Disk}

theorem kept_of_extends (inv : Leveled (lsmt.onDisk disk)) (grown : disk.Extends later) :
    lsmt.Kept disk later where
  fileId := grown.fileId
  tables level file member := grown.tables file.number (inv.numbered level file member)

theorem kept_of_removeFiles {dead : List Nat} (gone : ∀ number ∈ dead, lsmt.Absent number) :
    lsmt.Kept disk (disk.removeFiles dead) where
  fileId := le_rfl
  tables level file member := by
    have alive : file.number ∉ dead := fun isDead => gone _ isDead level file member rfl
    simp [Disk.removeFiles, alive]

theorem Lsmt.Kept.leveled (kept : lsmt.Kept disk later) (inv : Leveled (lsmt.onDisk disk)) :
    Leveled (lsmt.onDisk later) where
  apart := inv.apart
  once := inv.once
  nodup := inv.nodup
  numbered level file member := (inv.numbered level file member).trans kept.fileId
  described level file member := by
    have same : (lsmt.onDisk later).tables file.number = disk.tables file.number :=
      kept.tables level file member
    rw [same]
    exact inv.described level file member

theorem Lsmt.Kept.stored_iff (kept : lsmt.Kept disk later) {entry : Entry} :
    (lsmt.onDisk later).Stored entry ↔ (lsmt.onDisk disk).Stored entry := by
  constructor
  · rintro ⟨level, file, member, inside⟩
    exact ⟨level, file, member, (kept.tables level file member).subst inside⟩
  · rintro ⟨level, file, member, inside⟩
    exact ⟨level, file, member, (kept.tables level file member).symm.subst inside⟩

theorem Lsmt.Kept.storedVersions (kept : lsmt.Kept disk later) (key : Slice) :
    (lsmt.onDisk later).storedVersions key = (lsmt.onDisk disk).storedVersions key := by
  ext entry
  exact and_congr_left' kept.stored_iff

end Kept

/-! ## Compactions -/

/-- Some compactions of one LSMT, seen from the others on the disk. -/
structure Compacts (lsmt after : Lsmt) : Prop where
  newest : ∀ key found, Lib.Newest Entry.sequence (after.storedVersions key) found ↔
    Lib.Newest Entry.sequence (lsmt.storedVersions key) found
  stored : ∀ entry, after.Stored entry → lsmt.Stored entry
  grown : lsmt.disk.Extends after.disk
  numbers : ∀ level, ∀ file ∈ after.files level, lsmt.Absent file.number →
    lsmt.fileId < file.number
  obsolete : ∀ number ∈ after.obsoleteFiles,
    number ∈ lsmt.obsoleteFiles ∨ ¬ lsmt.Absent number ∨ lsmt.fileId < number

namespace Compacts

variable {lsmt middle after : Lsmt}

theorem of_alike (alike : Alike lsmt after) (fileId : after.fileId = lsmt.fileId) :
    Compacts lsmt after := by
  have rewrites := Rewrites.of_alike alike
  refine ⟨rewrites.newest, rewrites.stored, ?_, ?_, ?_⟩
  · refine ⟨fileId.ge, ?_⟩
    intro number _
    exact congrFun alike.tables number
  · intro level file member gone
    rw [alike.files] at member
    exact absurd rfl (gone level file member)
  · intro number member
    rw [alike.obsolete] at member
    exact .inl member

theorem trans (first : Compacts lsmt middle) (second : Compacts middle after) :
    Compacts lsmt after where
  newest key found := (second.newest key found).trans (first.newest key found)
  stored entry isStored := first.stored entry (second.stored entry isStored)
  grown := first.grown.trans second.grown
  numbers level file member gone := by
    by_cases new : middle.Absent file.number
    · exact first.grown.fileId.trans_lt (second.numbers level file member new)
    · simp only [Absent, not_forall, not_not] at new
      obtain ⟨place, other, isMiddle, same⟩ := new
      rw [← same] at gone ⊢
      exact first.numbers place other isMiddle gone
  obsolete number member := by
    rcases second.obsolete number member with old | live | new
    · exact first.obsolete number old
    · simp only [Absent, not_forall, not_not] at live
      obtain ⟨place, other, isMiddle, same⟩ := live
      by_cases gone : lsmt.Absent number
      · rw [← same] at gone ⊢
        exact .inr (.inr (first.numbers place other isMiddle gone))
      · exact .inr (.inl gone)
    · exact .inr (.inr (first.grown.fileId.trans_lt new))

/-- What one compaction keeps is enough if new files have new numbers. -/
theorem of_rewrites (rewrites : Rewrites lsmt after) (grown : lsmt.disk.Extends after.disk)
    (numbers : ∀ level, ∀ file ∈ after.files level, lsmt.Absent file.number →
      lsmt.fileId < file.number) : Compacts lsmt after where
  newest := rewrites.newest
  stored := rewrites.stored
  grown := grown
  numbers := numbers
  obsolete number member := by
    rcases (rewrites.obsolete number).mp member with old | ⟨live, -⟩
    · exact .inl old
    · exact .inr (.inl live)

/-- Numbers are not given twice, so what is obsolete stays absent. -/
theorem retired_of_rewrites (rewrites : Rewrites lsmt after) (compacts : Compacts lsmt after)
    (inv : Leveled lsmt) (retired : lsmt.Retired) : after.Retired := by
  intro number member
  rcases (rewrites.obsolete number).mp member with old | ⟨live, gone⟩
  · obtain ⟨absent, known⟩ := retired number old
    refine ⟨?_, known.trans compacts.grown.fileId⟩
    intro level file inside same
    have new := compacts.numbers level file inside (same.symm ▸ absent)
    omega
  · refine ⟨gone, ?_⟩
    simp only [Absent, not_forall, not_not] at live
    obtain ⟨place, file, inside, rfl⟩ := live
    exact (inv.numbered place file inside).trans compacts.grown.fileId

end Compacts

section Operations

variable {lsmt : Lsmt} (inv : Leveled lsmt) (plain : Plain lsmt)

include inv plain

theorem compacts_compact {compaction : Compaction} {target : Nat}
    (fits : Fits lsmt.files compaction target) (config : LsmtConfig) (guards : List Slice) :
    Compacts lsmt (lsmt.compact config guards compaction target) := by
  refine .of_rewrites (rewrites_compact inv plain fits config guards) ?_ ?_
  · have written : (lsmt.compact config guards compaction target).disk =
        (lsmt.writeOutputs config (lsmt.outputsOf config guards compaction)).disk := by
      rw [Lsmt.disk, compact_tables]
      simp only [Lsmt.compact, Lsmt.installCompactionResults]
      split <;> rfl
    rw [written]
    exact ⟨config.le_numberAfter _ _, fun number old => writeOutputs_old config _ old⟩
  · intro level file member gone
    rcases (mem_compact_iff inv fits config guards).mp member with stays | ⟨-, isAdded⟩
    · exact absurd rfl (gone level file (List.filter_sublist.subset stays))
    · exact (outputFiles_number isAdded).1

theorem compacts_of_compactTo {compaction : Compaction} {config : BufferConfig}
    {guards : List Slice} (fits : Fits lsmt.files compaction (compaction.level + 1))
    {after : Lsmt} (done : Checked.compactTo config guards compaction lsmt = .ok after) :
    Compacts lsmt after := by
  have rewrites := rewrites_of_compactTo inv plain fits done
  rw [Checked.compactTo] at done
  split at done
  · rename_i trivial
    rw [Checked.isTrivialMoveWithin, Bool.and_eq_true] at trivial
    obtain ⟨file, single, alone⟩ := Checked.single_of_isTrivialMove trivial.2
    rw [Checked.trivialMove_eq inv fits single alone] at done
    cases done
    refine .of_rewrites rewrites (Disk.Extends.refl _) ?_
    intro level other member gone
    obtain ⟨place, old⟩ := (mem_trivialMove_iff inv fits single other).mp ⟨level, member⟩
    exact absurd rfl (gone place other old)
  · rw [Checked.compact_eq inv fits] at done
    cases done
    exact compacts_compact inv plain fits config.toLsmtConfig guards

/-- `CompactLevel`. -/
theorem compacts_of_compactLevels (retired : lsmt.Retired) {config : BufferConfig}
    {guards : List Slice} {below level : Nat} {after : Lsmt} {state : OpState}
    (done : Checked.compactLevels config guards below level lsmt = .ok (state, after)) :
    (Leveled after ∧ Plain after ∧ after.Retired) ∧ Compacts lsmt after := by
  refine Checked.related_of_compactLevels
    (fun lsmt => Leveled lsmt ∧ Plain lsmt ∧ lsmt.Retired) (fun _ good => good.1)
    (fun _ => .of_alike ⟨rfl, rfl, rfl⟩ rfl) (fun _ _ _ first last => first.trans last)
    ?_ ?_ ⟨inv, plain, retired⟩ done
  · rintro lsmt pointers ⟨inv, plain, retired⟩
    have same : Rewrites lsmt { lsmt with compactPointer := pointers } :=
      .of_alike ⟨rfl, rfl, rfl⟩
    exact ⟨⟨inv.of_same rfl rfl rfl, same.plain plain, retired⟩,
      .of_alike ⟨rfl, rfl, rfl⟩ rfl⟩
  · rintro lsmt compaction middle ⟨inv, plain, retired⟩ fits ran
    have rewrites := rewrites_of_compactTo inv plain fits ran
    have compacts := compacts_of_compactTo inv plain fits ran
    have safe := Checked.safe_compactTo inv fits config guards
    rw [ran] at safe
    exact ⟨⟨safe, rewrites.plain plain, compacts.retired_of_rewrites rewrites inv retired⟩,
      compacts⟩

end Operations

/-! ## A family of LSMTs -/

/-- The LSMT has a file of the number in a level, or it is to remove it. -/
def Lsmt.Owns (lsmt : Lsmt) (number : Nat) : Prop :=
  ¬ lsmt.Absent number ∨ number ∈ lsmt.obsoleteFiles

/-- What each of the LSMTs on a disk keeps. -/
structure Sound (lsmt : Lsmt) : Prop where
  leveled : Leveled lsmt
  plain : Plain lsmt
  retired : lsmt.Retired

theorem Lsmt.Owns.known {lsmt : Lsmt} {number : Nat} (owns : lsmt.Owns number)
    (sound : Sound lsmt) : number ≤ lsmt.fileId := by
  rcases owns with live | obsolete
  · simp only [Absent, not_forall, not_not] at live
    obtain ⟨level, file, member, rfl⟩ := live
    exact sound.leveled.numbered level file member
  · exact (sound.retired number obsolete).2

theorem Compacts.owns {lsmt after : Lsmt} (compacts : Compacts lsmt after) {number : Nat}
    (owns : after.Owns number) : lsmt.Owns number ∨ lsmt.fileId < number := by
  rcases owns with live | obsolete
  · simp only [Absent, not_forall, not_not] at live
    obtain ⟨level, file, member, rfl⟩ := live
    by_cases gone : lsmt.Absent file.number
    · exact .inr (compacts.numbers level file member gone)
    · exact .inl (.inl gone)
  · rcases compacts.obsolete number obsolete with old | live | new
    · exact .inl (.inr old)
    · exact .inl (.inl live)
    · exact .inr new

theorem Lsmt.Kept.sound {lsmt : Lsmt} {disk later : Disk} (kept : lsmt.Kept disk later)
    (sound : Sound (lsmt.onDisk disk)) : Sound (lsmt.onDisk later) where
  leveled := kept.leveled sound.leveled
  plain := by
    refine ⟨?_, ?_⟩
    · intro left right isLeft isRight
      exact sound.plain.named left right (kept.stored_iff.mp isLeft) (kept.stored_iff.mp isRight)
    · intro entry isStored
      exact sound.plain.values entry (kept.stored_iff.mp isStored)
  retired number obsolete := by
    obtain ⟨absent, known⟩ := sound.retired number obsolete
    exact ⟨absent, known.trans kept.fileId⟩

/-- An LSMT may give files up. -/
theorem Sound.of_sublist {lsmt after : Lsmt} {disk : Disk} (sound : Sound (lsmt.onDisk disk))
    (files : ∀ level, (after.files level).Sublist (lsmt.files level))
    (obsolete : ∀ number ∈ after.obsoleteFiles, number ∈ lsmt.obsoleteFiles) :
    Sound (after.onDisk disk) := by
  have stored : ∀ entry, (after.onDisk disk).Stored entry → (lsmt.onDisk disk).Stored entry := by
    rintro entry ⟨level, file, member, inside⟩
    exact ⟨level, file, (files level).subset member, inside⟩
  refine ⟨sound.leveled.of_sublist files rfl rfl, ⟨?_, ?_⟩, ?_⟩
  · intro left right isLeft isRight
    exact sound.plain.named left right (stored left isLeft) (stored right isRight)
  · intro entry isStored
    exact sound.plain.values entry (stored entry isStored)
  · intro number member
    obtain ⟨absent, known⟩ := sound.retired number (obsolete number member)
    refine ⟨?_, known⟩
    intro level file inside
    exact absent level file ((files level).subset inside)

/-- LSMTs on one disk, each in order, and no two with a number in common. -/
structure OnOneDisk {place : Type} (disk : Disk) (lsmts : place → Option Lsmt) : Prop where
  sound : ∀ {here lsmt}, lsmts here = some lsmt → Sound (lsmt.onDisk disk)
  owned : ∀ {here there left right number}, lsmts here = some left → lsmts there = some right →
    left.Owns number → right.Owns number → here = there

namespace OnOneDisk

variable {place : Type} [DecidableEq place] {disk : Disk} {lsmts : place → Option Lsmt}
  (family : OnOneDisk disk lsmts) {here : place} {lsmt : Lsmt} (found : lsmts here = some lsmt)

include family found

omit [DecidableEq place] in
/-- The others do not notice that the LSMT removes its obsolete files. -/
theorem kept_removeFiles {there : place} {other : Lsmt} (isOther : lsmts there = some other) :
    other.Kept disk (disk.removeFiles lsmt.obsoleteFiles) := by
  refine kept_of_removeFiles ?_
  intro number obsolete
  by_contra live
  have same : here = there := family.owned found isOther (.inr obsolete) (.inl live)
  subst same
  rw [found] at isOther
  cases isOther
  exact live ((family.sound found).retired number obsolete).1

/-- One LSMT is compacted. -/
theorem compact {after : Lsmt} (sound : Sound after)
    (compacts : Compacts (lsmt.onDisk disk) after) :
    OnOneDisk after.disk (Function.update lsmts here (some after)) := by
  have grown : disk.Extends after.disk := compacts.grown
  have others : ∀ {there other}, Function.update lsmts here (some after) there = some other →
      there = here ∧ other = after ∨ there ≠ here ∧ lsmts there = some other := by
    intro there other isOther
    by_cases same : there = here
    · subst same
      rw [Function.update_self] at isOther
      exact .inl ⟨rfl, (Option.some.inj isOther).symm⟩
    · rw [Function.update_of_ne same] at isOther
      exact .inr ⟨same, isOther⟩
  have fresh : ∀ {there other number}, there ≠ here → lsmts there = some other →
      other.Owns number → ¬ after.Owns number := by
    intro there other number different isOther ownsOther ownsAfter
    rcases compacts.owns ownsAfter with ownsOld | new
    · exact different (family.owned isOther found ownsOther ownsOld)
    · have known : number ≤ disk.fileId :=
        @Lsmt.Owns.known (other.onDisk disk) _ ownsOther (family.sound isOther)
      exact absurd new (not_lt.mpr known)
  refine ⟨?_, ?_⟩
  · intro there other isOther
    rcases others isOther with ⟨-, rfl⟩ | ⟨-, isOld⟩
    · exact sound
    · have old := family.sound isOld
      exact (kept_of_extends old.leveled grown).sound old
  · intro there elsewhere left right number isLeft isRight ownsLeft ownsRight
    rcases others isLeft with ⟨rfl, rfl⟩ | ⟨leftApart, leftOld⟩ <;>
      rcases others isRight with ⟨rfl, rfl⟩ | ⟨rightApart, rightOld⟩
    · rfl
    · exact absurd ownsLeft (fresh rightApart rightOld ownsRight)
    · exact absurd ownsRight (fresh leftApart leftOld ownsLeft)
    · exact family.owned leftOld rightOld ownsLeft ownsRight

/-- One LSMT removes its obsolete files. -/
theorem remove :
    OnOneDisk (disk.removeFiles lsmt.obsoleteFiles)
      (Function.update lsmts here (some { lsmt with obsoleteFiles := [] })) := by
  have others : ∀ {there other},
      Function.update lsmts here (some { lsmt with obsoleteFiles := [] }) there = some other →
      ∃ old, lsmts there = some old ∧ other.files = old.files ∧
        ∀ number ∈ other.obsoleteFiles, number ∈ old.obsoleteFiles := by
    intro there other isOther
    by_cases same : there = here
    · subst same
      rw [Function.update_self] at isOther
      cases isOther
      exact ⟨lsmt, found, rfl, fun _ member => absurd member List.not_mem_nil⟩
    · rw [Function.update_of_ne same] at isOther
      exact ⟨other, isOther, rfl, fun _ => id⟩
  have owns : ∀ {old other : Lsmt} {number : Nat}, other.files = old.files →
      (∀ number ∈ other.obsoleteFiles, number ∈ old.obsoleteFiles) → other.Owns number →
      old.Owns number := by
    rintro old other number files obsolete (live | gone)
    · refine .inl (fun absent => live ?_)
      intro level file member
      rw [files] at member
      exact absent level file member
    · exact .inr (obsolete number gone)
  refine ⟨?_, ?_⟩
  · intro there other isOther
    obtain ⟨old, isOld, files, obsolete⟩ := others isOther
    have kept := family.kept_removeFiles found isOld
    refine (kept.sound (family.sound isOld)).of_sublist ?_ obsolete
    intro level
    rw [files]
  · intro there elsewhere left right number isLeft isRight ownsLeft ownsRight
    obtain ⟨oldLeft, isOldLeft, leftFiles, leftObsolete⟩ := others isLeft
    obtain ⟨oldRight, isOldRight, rightFiles, rightObsolete⟩ := others isRight
    exact family.owned isOldLeft isOldRight (owns leftFiles leftObsolete ownsLeft)
      (owns rightFiles rightObsolete ownsRight)

end OnOneDisk

end AhaTree
