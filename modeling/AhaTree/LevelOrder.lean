import AhaTree.CompactionOutput
import Mathlib.Data.List.TakeWhile

/-!
# Levels in order

Below level 0 the files of a level follow one another without a common user
key.  This module says what such a level gives to the functions that search it,
choose inputs from it or put new files into it.
-/

namespace AhaTree

/-- The first file ends before the second one starts. -/
def Apart (front behind : FileMetaData) : Prop := front.limit < behind.start

theorem Apart.trans {front middle behind : FileMetaData} (first : Apart front middle)
    (second : Apart middle behind) : Apart front behind :=
  first.trans_le (middle.start_le_limit.trans second.le)

theorem Apart.asymm {front behind : FileMetaData} (apart : Apart front behind) :
    ¬ Apart behind front := by
  intro back
  exact lt_irrefl _ ((apart.trans_le behind.start_le_limit).trans
    (back.trans_le front.start_le_limit))

/-- Two files of a level are the same one, or one ends before the other starts. -/
theorem apart_or_eq {files : List FileMetaData} (sorted : files.Pairwise Apart)
    {left right : FileMetaData} (isLeft : left ∈ files) (isRight : right ∈ files) :
    left = right ∨ Apart left right ∨ Apart right left := by
  by_cases same : left = right
  · exact .inl same
  · have either : files.Pairwise (fun front behind => Apart front behind ∨
        Apart behind front) := sorted.imp Or.inl
    have symmetric : Std.Symm (fun front behind => Apart front behind ∨
        Apart behind front) := ⟨fun _ _ => Or.symm⟩
    exact .inr (either.forall isLeft isRight same)

theorem compare_lt_of_apart {front behind : FileMetaData} (apart : Apart front behind) :
    (front.largest.compare behind.smallest).isLT = true := by
  rw [Ordering.isLT_iff_eq_lt, InternalKey.compare_eq_lt]
  exact .inl apart

theorem limit_le_start_of_compare_lt {front behind : FileMetaData}
    (less : (front.largest.compare behind.smallest).isLT = true) :
    front.limit ≤ behind.start := by
  rw [Ordering.isLT_iff_eq_lt, InternalKey.compare_eq_lt] at less
  rcases less with below | ⟨same, -⟩
  · exact below.le
  · exact same.le

/-! ## Descriptions of tables -/

/-- The description fits the table: the entries ascend, the first and the last
one are its ends, and none has the sequence number that is kept for seeks. -/
structure Describes (file : FileMetaData) (entries : List Entry) : Prop where
  first : ∃ entry, entries.head? = some entry ∧ file.smallest = entry.key
  last : ∃ entry, entries.getLast? = some entry ∧ file.largest = entry.key
  ascending : entries.Pairwise (fun front behind => front.before behind = true)
  bounded : ∀ entry ∈ entries, entry.sequence < kMaxSequenceNumber

namespace Describes

variable {file : FileMetaData} {entries : List Entry} {entry : Entry}

theorem sorted (describes : Describes file entries) :
    entries.Pairwise (fun front behind => behind.before front = false) :=
  describes.ascending.imp (fun order => Entry.before_strictOrder.asymm _ _ order)

theorem start_le (describes : Describes file entries) (member : entry ∈ entries) :
    file.start ≤ entry.userKey := by
  obtain ⟨first, isFirst, same⟩ := describes.first
  obtain ⟨rest, rfl⟩ := List.head?_eq_some_iff.mp isFirst
  have order : Ascending (first :: rest) := ascending_of_not_before describes.sorted
  rw [FileMetaData.start, same]
  rcases List.mem_cons.mp member with rfl | later
  · exact le_rfl
  · exact (List.pairwise_cons.mp order).1 entry later

theorem le_limit (describes : Describes file entries) (member : entry ∈ entries) :
    entry.userKey ≤ file.limit := by
  obtain ⟨last, isLast, same⟩ := describes.last
  obtain ⟨front, rfl⟩ := List.getLast?_eq_some_iff.mp isLast
  have order : Ascending (front ++ [last]) := ascending_of_not_before describes.sorted
  rw [FileMetaData.limit, same]
  rcases List.mem_append.mp member with earlier | isLast
  · exact (List.pairwise_append.mp order).2.2 entry earlier last (List.mem_singleton_self _)
  · rw [List.mem_singleton.mp isLast]
    exact le_rfl

/-- The smallest key does not lie behind the largest one. -/
theorem not_gt (describes : Describes file entries) :
    (file.smallest.compare file.largest).isGT = false := by
  obtain ⟨first, isFirst, sameFirst⟩ := describes.first
  obtain ⟨last, isLast, sameLast⟩ := describes.last
  obtain ⟨rest, rfl⟩ := List.head?_eq_some_iff.mp isFirst
  rw [sameFirst, sameLast]
  have inside := List.mem_of_getLast? isLast
  rcases List.mem_cons.mp inside with rfl | later
  · rcases compared : last.key.compare last.key with _ | _ | _
    · rfl
    · rfl
    · simp [InternalKey.compare, Slice.compare_eq_eq.mpr rfl] at compared
  · have order := (List.pairwise_cons.mp describes.ascending).1 last later
    have less : first.key.compare last.key = .lt := Ordering.isLT_iff_eq_lt.mp order
    rw [less]
    rfl

theorem limit_bounded (describes : Describes file entries) :
    file.largest.sequence < kMaxSequenceNumber := by
  obtain ⟨last, isLast, same⟩ := describes.last
  rw [same]
  exact describes.bounded last (List.mem_of_getLast? isLast)

end Describes

/-! ## The files of a compaction's outputs -/

/-- Entries with ascending user keys are described by the file made for them. -/
theorem describes_tableFile {config : LsmtConfig} {number : Nat} {entries : List Entry}
    {file : FileMetaData} (isFile : tableFile config number entries = some file)
    (strict : entries.Pairwise (fun front behind => front.userKey < behind.userKey))
    (bounded : ∀ entry ∈ entries, entry.sequence < kMaxSequenceNumber) :
    file.number = number ∧ Describes file entries := by
  cases entries with
  | nil => cases isFile
  | cons first rest =>
      simp only [tableFile, Option.some.injEq] at isFile
      subst isFile
      obtain ⟨last, isLast⟩ : ∃ last, (first :: rest).getLast? = some last :=
        ⟨_, List.getLast?_eq_some_getLast (List.cons_ne_nil first rest)⟩
      have order : first.userKey ≤ last.userKey := by
        rcases List.mem_cons.mp (List.mem_of_getLast? isLast) with rfl | later
        · exact le_rfl
        · exact ((List.pairwise_cons.mp strict).1 last later).le
      have ends : (FileMetaData.ofEntries config number first
          ((first :: rest).getLast?.getD first) (first :: rest)).largest = last.key := by
        simp only [FileMetaData.ofEntries, isLast, Option.getD_some]
        exact if_pos order
      refine ⟨rfl, ⟨first, rfl, rfl⟩, ⟨last, isLast, ends⟩, ?_, bounded⟩
      exact strict.imp (fun less => Entry.before_iff.mpr (.inl less))

namespace Lsmt

/-- The files of the outputs, one for each. -/
theorem outputFiles_cons (config : LsmtConfig) (number : Nat) {entries : List Entry}
    (filled : entries ≠ []) (outputs : List (List Entry)) :
    ∃ file, tableFile config (config.outputNumber number) entries = some file ∧
      outputFiles config number (entries :: outputs) =
        file :: outputFiles config (config.outputNumber number) outputs := by
  cases entries with
  | nil => exact absurd rfl filled
  | cons first rest => exact ⟨_, rfl, rfl⟩

/-- A file of the outputs describes one of them, and its number leads to it. -/
theorem mem_outputFiles {config : LsmtConfig} {number : Nat}
    {outputs : List (List Entry)} (filled : ∀ output ∈ outputs, output ≠ [])
    (strict : outputs.flatten.Pairwise
      (fun front behind => front.userKey < behind.userKey))
    (bounded : ∀ entry ∈ outputs.flatten, entry.sequence < kMaxSequenceNumber)
    {file : FileMetaData} (member : file ∈ outputFiles config number outputs) :
    ∃ place entries, outputs[place]? = some entries ∧
      file.number = config.numberAfter number (place + 1) ∧ Describes file entries := by
  induction outputs generalizing number with
  | nil => cases member
  | cons entries outputs ih =>
      rw [List.flatten_cons] at strict bounded
      obtain ⟨own, isOwn, same⟩ :=
        outputFiles_cons config number (filled entries List.mem_cons_self) outputs
      rw [same] at member
      rcases List.mem_cons.mp member with rfl | later
      · obtain ⟨isNumber, describes⟩ := describes_tableFile isOwn
          (List.pairwise_append.mp strict).1
          (fun entry inside => bounded entry (List.mem_append_left _ inside))
        exact ⟨0, entries, rfl, isNumber, describes⟩
      · obtain ⟨place, found, atPlace, isNumber, describes⟩ :=
          ih (fun output inside => filled output (List.mem_cons_of_mem _ inside))
            (List.pairwise_append.mp strict).2.1
            (fun entry inside => bounded entry (List.mem_append_right _ inside)) later
        exact ⟨place + 1, found, atPlace, isNumber, describes⟩

/-- The files of the outputs follow one another. -/
theorem outputFiles_apart {config : LsmtConfig} {number : Nat}
    {outputs : List (List Entry)} (filled : ∀ output ∈ outputs, output ≠ [])
    (strict : outputs.flatten.Pairwise
      (fun front behind => front.userKey < behind.userKey))
    (bounded : ∀ entry ∈ outputs.flatten, entry.sequence < kMaxSequenceNumber) :
    (outputFiles config number outputs).Pairwise Apart := by
  induction outputs generalizing number with
  | nil => exact List.Pairwise.nil
  | cons entries outputs ih =>
      rw [List.flatten_cons] at strict bounded
      obtain ⟨own, isOwn, same⟩ :=
        outputFiles_cons config number (filled entries List.mem_cons_self) outputs
      have restFilled : ∀ output ∈ outputs, output ≠ [] :=
        fun output inside => filled output (List.mem_cons_of_mem _ inside)
      have restStrict := (List.pairwise_append.mp strict).2.1
      have restBounded : ∀ entry ∈ outputs.flatten,
          entry.sequence < kMaxSequenceNumber :=
        fun entry inside => bounded entry (List.mem_append_right _ inside)
      rw [same]
      refine List.pairwise_cons.mpr ⟨?_, ih restFilled restStrict restBounded⟩
      intro file member
      obtain ⟨place, found, atPlace, -, describes⟩ :=
        mem_outputFiles restFilled restStrict restBounded member
      obtain ⟨-, ownDescribes⟩ := describes_tableFile isOwn
        (List.pairwise_append.mp strict).1
        (fun entry inside => bounded entry (List.mem_append_left _ inside))
      obtain ⟨last, isLast, ends⟩ := ownDescribes.last
      obtain ⟨first, isFirst, starts⟩ := describes.first
      have order := (List.pairwise_append.mp strict).2.2 last
        (List.mem_of_getLast? isLast) first
        (List.mem_flatten.mpr ⟨found, List.mem_of_getElem? atPlace,
          List.mem_of_head? isFirst⟩)
      rw [Apart, FileMetaData.limit, FileMetaData.start, ends, starts]
      exact order

theorem outputFiles_nodup (config : LsmtConfig) (number : Nat)
    (outputs : List (List Entry)) :
    ((outputFiles config number outputs).map FileMetaData.number).Nodup := by
  induction outputs generalizing number with
  | nil => exact List.nodup_nil
  | cons entries outputs ih =>
      cases entries with
      | nil => exact ih (config.outputNumber number)
      | cons first rest =>
          have cons : outputFiles config number ((first :: rest) :: outputs) =
              FileMetaData.ofEntries config (config.outputNumber number) first
                ((first :: rest).getLast?.getD first) (first :: rest) ::
                outputFiles config (config.outputNumber number) outputs := rfl
          rw [cons, List.map_cons, List.nodup_cons]
          refine ⟨?_, ih (config.outputNumber number)⟩
          intro member
          obtain ⟨file, isFile, same⟩ := List.mem_map.mp member
          exact absurd same (outputFiles_number isFile).1.ne'

/-- Tables that have a number already stay as they are. -/
theorem storeOutputs_old (config : LsmtConfig) {number : Nat} (outputs : List (List Entry))
    (tables : Nat → List Entry) {known : Nat} (old : known ≤ number) :
    storeOutputs config number outputs tables known = tables known := by
  induction outputs generalizing number tables with
  | nil => rfl
  | cons entries outputs ih =>
      have next := config.lt_outputNumber number
      refine (ih _ (old.trans next.le)).trans ?_
      exact Function.update_of_ne (old.trans_lt next).ne _ _

/-- Every output is found under its number. -/
theorem storeOutputs_new (config : LsmtConfig) {number : Nat} {outputs : List (List Entry)}
    (tables : Nat → List Entry) {place : Nat} {output : List Entry}
    (found : outputs[place]? = some output) :
    storeOutputs config number outputs tables (config.numberAfter number (place + 1)) =
      output := by
  induction outputs generalizing number tables place with
  | nil => cases found
  | cons entries outputs ih =>
      cases place with
      | zero =>
          cases found
          refine (storeOutputs_old config outputs _ le_rfl).trans ?_
          exact Function.update_self _ _ _
      | succ place => exact ih _ found

theorem writeOutputs_old (config : LsmtConfig) (outputs : List (List Entry)) {lsmt : Lsmt}
    {number : Nat} (old : number ≤ lsmt.fileId) :
    (lsmt.writeOutputs config outputs).tables number = lsmt.tables number :=
  storeOutputs_old config outputs lsmt.tables old

theorem writeOutputs_new (config : LsmtConfig) {outputs : List (List Entry)} {lsmt : Lsmt}
    {place : Nat} {output : List Entry} (found : outputs[place]? = some output) :
    (lsmt.writeOutputs config outputs).tables
      (config.numberAfter lsmt.fileId (place + 1)) = output :=
  storeOutputs_new config lsmt.tables found

end Lsmt

/-! ## Placing files in a level -/

theorem bySmallestKey_of_apart {front behind : FileMetaData} (apart : Apart front behind) :
    bySmallestKey front behind = true := by
  have less : front.smallest.compare behind.smallest = .lt :=
    InternalKey.compare_eq_lt.mpr (.inl (front.start_le_limit.trans_lt apart))
  rw [bySmallestKey, less]

/-- The set of added files keeps the order of files that follow one another. -/
theorem foldr_insertFile_of_apart {files : List FileMetaData}
    (sorted : files.Pairwise Apart) : files.foldr insertFile [] = files := by
  induction files with
  | nil => rfl
  | cons file files ih =>
      obtain ⟨ahead, rest⟩ := List.pairwise_cons.mp sorted
      rw [List.foldr_cons, ih rest]
      cases files with
      | nil => rfl
      | cons next files =>
          rw [insertFile, if_pos (bySmallestKey_of_apart (ahead next List.mem_cons_self))]

/-- Nothing but the deleted files gets lost when files are placed. -/
theorem placeFiles_perm (deleted : List Nat) (added base : List FileMetaData) :
    (placeFiles deleted added base).Perm
      ((added ++ base).filter (fun file => !deleted.contains file.number)) := by
  induction added generalizing base with
  | nil => exact List.Perm.refl _
  | cons first added ih =>
      rw [placeFiles]
      generalize small : (fun other : FileMetaData =>
        (other.largest.compare first.smallest).isLT) = passes
      have split := @List.takeWhile_append_dropWhile _ passes base
      have order : (base.takeWhile passes ++ [first] ++ (added ++ base.dropWhile passes)).Perm
          (first :: added ++ base) := by
        have moved : (base.takeWhile passes ++ (first :: added ++ base.dropWhile passes)).Perm
            (first :: added ++ (base.dropWhile passes ++ base.takeWhile passes)) := by
          rw [← List.append_assoc (first :: added)]
          exact List.perm_append_comm
        have joined : (base.dropWhile passes ++ base.takeWhile passes).Perm base :=
          List.perm_append_comm.trans (List.Perm.of_eq split)
        have regrouped : base.takeWhile passes ++ [first] ++ (added ++ base.dropWhile passes) =
            base.takeWhile passes ++ (first :: added ++ base.dropWhile passes) := by
          simp
        rw [regrouped]
        exact moved.trans (joined.append_left _)
      refine ((ih (base.dropWhile passes)).append_left _).trans ?_
      rw [← List.filter_append]
      exact order.filter _

/-- Added files that follow one another and keep clear of the files that stay are
placed in order. -/
theorem placeFiles_apart {deleted : List Nat} {added base : List FileMetaData}
    (addedSorted : added.Pairwise Apart) (baseSorted : base.Pairwise Apart)
    (clear : ∀ file ∈ added, ∀ other ∈ base, other.number ∉ deleted →
      Apart file other ∨ Apart other file) :
    (placeFiles deleted added base).Pairwise Apart := by
  induction added generalizing base with
  | nil => exact baseSorted.filter _
  | cons first added ih =>
      obtain ⟨ahead, restSorted⟩ := List.pairwise_cons.mp addedSorted
      rw [placeFiles]
      have passed : ∀ other ∈ base.takeWhile (fun other =>
          (other.largest.compare first.smallest).isLT), other.number ∉ deleted →
          Apart other first := by
        intro other member stays
        have less : (other.largest.compare first.smallest).isLT = true :=
          List.mem_takeWhile_imp (p := fun other : FileMetaData =>
            (other.largest.compare first.smallest).isLT) member
        have small := limit_le_start_of_compare_lt less
        rcases clear first List.mem_cons_self other
          ((List.takeWhile_sublist _).subset member) stays with after | before
        · exact absurd (after.trans_le (other.start_le_limit.trans small))
            (not_lt.mpr first.start_le_limit)
        · exact before
      have left : ∀ other ∈ base.dropWhile (fun other =>
          (other.largest.compare first.smallest).isLT), other.number ∉ deleted →
          Apart first other := by
        intro other member stays
        rcases clear first List.mem_cons_self other
          ((List.dropWhile_sublist _).subset member) stays with after | before
        · exact after
        · -- the file at which the loop stops does not end before the added one
          exfalso
          cases dropped : base.dropWhile (fun other =>
              (other.largest.compare first.smallest).isLT) with
          | nil =>
              rw [dropped] at member
              cases member
          | cons stop rest =>
              have kept : (stop.largest.compare first.smallest).isLT = false := by
                have head := List.head?_dropWhile_not (fun other : FileMetaData =>
                  (other.largest.compare first.smallest).isLT) base
                rw [dropped] at head
                exact head
              have sorted := baseSorted.sublist (List.dropWhile_sublist (fun other =>
                (other.largest.compare first.smallest).isLT))
              rw [dropped] at sorted member
              rcases List.mem_cons.mp member with rfl | later
              · rw [compare_lt_of_apart before] at kept
                cases kept
              · have apart := (List.pairwise_cons.mp sorted).1 other later
                rw [compare_lt_of_apart (apart.trans before)] at kept
                cases kept
      have restClear : ∀ file ∈ added, ∀ other ∈ base.dropWhile (fun other =>
          (other.largest.compare first.smallest).isLT), other.number ∉ deleted →
          Apart file other ∨ Apart other file := by
        intro file isAdded other member stays
        exact clear file (List.mem_cons_of_mem _ isAdded) other
          ((List.dropWhile_sublist _).subset member) stays
      refine List.pairwise_append.mpr ⟨?_, ih restSorted
        (baseSorted.sublist (List.dropWhile_sublist _)) restClear, ?_⟩
      · rw [List.filter_append]
        refine List.pairwise_append.mpr ⟨?_, (List.pairwise_singleton _ _).filter _, ?_⟩
        · exact (baseSorted.sublist (List.takeWhile_sublist _)).filter _
        · intro other member file isFirst
          obtain ⟨inside, stays⟩ := List.mem_filter.mp member
          rw [List.mem_singleton.mp (List.mem_filter.mp isFirst).1]
          exact passed other inside (by simpa using stays)
      · intro front isFront behind isBehind
        obtain ⟨place, stays⟩ := List.mem_filter.mp isFront
        obtain ⟨source, behindStays⟩ := mem_placeFiles.mp isBehind
        have afterFirst : Apart first behind := by
          rcases source with isAdded | inBase
          · exact ahead behind isAdded
          · exact left behind inBase behindStays
        rcases List.mem_append.mp place with early | isFirst
        · exact (passed front early (by simpa using stays)).trans afterFirst
        · rw [List.mem_singleton.mp isFirst]
          exact afterFirst

end AhaTree
