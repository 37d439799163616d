import AhaTree.RootCompaction
import AhaTree.LeafMerge

/-!
# What the compaction loop writes

The outputs of `DoCompactionWorkImpl`, joined, are a selection of the merged
input: at most the first version of each user key, and the values among those
always.  Guards, sizes and grandparents only decide where one output ends and
the next one starts.
-/

namespace AhaTree

/-! ## First versions -/

/-- The entries of a list that do not follow an entry of their own user key. -/
def firstVersions : Option Slice → List Entry → List Entry
  | _, [] => []
  | current, entry :: entries =>
      if current = some entry.userKey then firstVersions current entries
      else entry :: firstVersions (some entry.userKey) entries

theorem firstVersions_sublist (current : Option Slice) (entries : List Entry) :
    (firstVersions current entries).Sublist entries := by
  induction entries generalizing current with
  | nil => exact List.Sublist.refl _
  | cons entry entries ih =>
      rw [firstVersions]
      split
      · exact (ih current).cons entry
      · exact (ih _).cons_cons entry

/-- User keys do not descend. -/
def Ascending (entries : List Entry) : Prop :=
  entries.Pairwise (fun front behind => front.userKey ≤ behind.userKey)

theorem ascending_of_not_before {entries : List Entry}
    (sorted : entries.Pairwise (fun front behind => behind.before front = false)) :
    Ascending entries := by
  refine sorted.imp ?_
  intro front behind order
  rcases Entry.not_before_iff.mp order with less | ⟨same, -⟩
  · exact less.le
  · exact same.le

theorem firstVersions_above {hidden : Slice} {entries : List Entry}
    (ascending : Ascending entries) (reached : ∀ entry ∈ entries, hidden ≤ entry.userKey)
    {entry : Entry} (member : entry ∈ firstVersions (some hidden) entries) :
    hidden < entry.userKey := by
  induction entries generalizing hidden with
  | nil => cases member
  | cons first entries ih =>
      have order := List.pairwise_cons.mp ascending
      rw [firstVersions] at member
      split at member
      · exact ih order.2 (fun other later => reached other (List.mem_cons_of_mem _ later))
          member
      · rename_i different
        have above : hidden < first.userKey :=
          lt_of_le_of_ne (reached first List.mem_cons_self)
            (fun same => different (congrArg some same))
        rcases List.mem_cons.mp member with rfl | later
        · exact above
        · exact above.trans (ih order.2 order.1 later)

/-- First versions have different user keys, in order. -/
theorem firstVersions_strict {entries : List Entry} (ascending : Ascending entries)
    (current : Option Slice) :
    (firstVersions current entries).Pairwise
      (fun front behind => front.userKey < behind.userKey) := by
  induction entries generalizing current with
  | nil => exact List.Pairwise.nil
  | cons first entries ih =>
      have order := List.pairwise_cons.mp ascending
      rw [firstVersions]
      split
      · exact ih order.2 current
      · refine List.pairwise_cons.mpr ⟨?_, ih order.2 _⟩
        intro entry member
        exact firstVersions_above order.2 order.1 member

/-! ## One round -/

namespace Work

/-- All that is in an output, finished or open. -/
def written (work : Work) : List Entry :=
  work.outputs.flatten ++ work.builder.getD []

@[simp] theorem finish_written (work : Work) : work.finish.written = work.written := by
  rw [finish]
  split
  · rfl
  · rename_i entries isOpen
    simp [written, isOpen]

@[simp] theorem stopBefore_written (config : LsmtConfig) (key : InternalKey)
    (work : Work) : (work.stopBefore config key).written = work.written := by
  simp only [stopBefore]
  split
  · rw [finish_written]
    rfl
  · rfl

@[simp] theorem drops_written (level : Nat) (entry : Entry) (work : Work) :
    (work.drops level entry).2.written = work.written := by
  obtain ⟨sameOutputs, sameBuilder, -⟩ := drops_keeps level entry work
  rw [written, sameOutputs, sameBuilder, written]

@[simp] theorem passGuard_written (guards : List Slice) (entry : Entry) (work : Work) :
    (work.passGuard guards entry).written = work.written := by
  rw [passGuard]
  split
  · rfl
  · split
    · exact finish_written work
    · rfl

@[simp] theorem add_written (config : LsmtConfig) (guards : List Slice) (entry : Entry)
    (work : Work) :
    (work.add config guards entry).written = work.written ++ [entry] := by
  have added : written { work with builder := some (work.builder.getD [] ++ [entry]) } =
      work.written ++ [entry] := by
    simp [written]
  simp only [add]
  split
  · rw [finish_written, added]
  · exact added

/-- Whether a round drops its entry. -/
def roundDrops (config : LsmtConfig) (level : Nat) (work : Work) (entry : Entry) : Bool :=
  ((work.stopBefore config entry.key).drops level entry).1

theorem round_written (config : LsmtConfig) (guards : List Slice) (level : Nat)
    (work : Work) (entry : Entry) :
    (work.round config guards level entry).written =
      work.written ++ if work.roundDrops config level entry then [] else [entry] := by
  simp only [round, roundDrops]
  split
  · rename_i dropped
    simp [dropped]
  · rename_i stays
    simp [stays]

/-! ## The whole loop -/

/-- The entries that the rounds do not drop. -/
def kept (config : LsmtConfig) (guards : List Slice) (level : Nat) :
    Work → List Entry → List Entry
  | _, [] => []
  | work, entry :: entries =>
      (if work.roundDrops config level entry then [] else [entry]) ++
        kept config guards level (work.round config guards level entry) entries

theorem foldl_written (config : LsmtConfig) (guards : List Slice) (level : Nat)
    (work : Work) (entries : List Entry) :
    (entries.foldl (Work.round config guards level) work).written =
      work.written ++ work.kept config guards level entries := by
  induction entries generalizing work with
  | nil => simp [kept]
  | cons entry entries ih =>
      rw [List.foldl_cons, ih, round_written, kept, List.append_assoc]

@[simp] theorem finish_lastSequence (work : Work) :
    work.finish.lastSequence = work.lastSequence := by
  rw [finish]
  split <;> rfl

theorem stopBefore_lastSequence (config : LsmtConfig) (key : InternalKey) (work : Work) :
    (work.stopBefore config key).lastSequence = work.lastSequence := by
  simp only [stopBefore]
  split
  · rw [finish_lastSequence]
    rfl
  · rfl

theorem passGuard_lastSequence (guards : List Slice) (entry : Entry) (work : Work) :
    (work.passGuard guards entry).lastSequence = work.lastSequence := by
  rw [passGuard]
  split
  · rfl
  · split
    · exact finish_lastSequence work
    · rfl

theorem add_lastSequence (config : LsmtConfig) (guards : List Slice) (entry : Entry)
    (work : Work) :
    (work.add config guards entry).lastSequence = work.lastSequence := by
  simp only [add]
  split <;> rfl

theorem round_lastSequence (config : LsmtConfig) (guards : List Slice) (level : Nat)
    (work : Work) (entry : Entry) :
    (work.round config guards level entry).lastSequence = entry.sequence := by
  have moved : ((work.stopBefore config entry.key).drops level entry).2.lastSequence =
      entry.sequence := by
    rw [drops]
    cases (work.stopBefore config entry.key).hides entry with
    | true => rfl
    | false =>
        cases entry.key.type with
        | kTypeValue => rfl
        | kTypeDeletion => rfl
  simp only [round]
  split
  · exact moved
  · rw [add_lastSequence, passGuard_lastSequence]
    exact moved

/-- A user key that the loop has seen is not open again: its last sequence number
is below the greatest one. -/
def Settled (work : Work) : Prop :=
  work.currentUserKey ≠ none → work.lastSequence < kMaxSequenceNumber

theorem Settled.round (config : LsmtConfig) (guards : List Slice) (level : Nat)
    (work : Work) {entry : Entry} (bounded : entry.sequence < kMaxSequenceNumber) :
    (work.round config guards level entry).Settled := by
  intro _
  rw [round_lastSequence]
  exact bounded

theorem Settled.hides_iff {work : Work} (settled : work.Settled) (config : LsmtConfig)
    (entry : Entry) :
    (work.stopBefore config entry.key).hides entry = true ↔
      work.currentUserKey = some entry.userKey := by
  rw [hides, stopBefore_currentUserKey, stopBefore_lastSequence, Bool.and_eq_true,
    beq_iff_eq, decide_eq_true_eq]
  refine ⟨And.left, fun same => ⟨same, settled ?_⟩⟩
  rw [same]
  exact Option.some_ne_none _

theorem roundDrops_of_hidden (config : LsmtConfig) (level : Nat) {work : Work}
    {entry : Entry} (hidden : (work.stopBefore config entry.key).hides entry = true) :
    work.roundDrops config level entry = true := by
  rw [roundDrops, drops, if_pos hidden]

theorem roundDrops_of_value (config : LsmtConfig) (level : Nat) {work : Work}
    {entry : Entry} (shown : ¬ (work.stopBefore config entry.key).hides entry = true)
    (isValue : entry.IsValue) : work.roundDrops config level entry = false := by
  rw [Entry.IsValue] at isValue
  rw [roundDrops, drops, if_neg shown, isValue]

/-- At most the first versions stay. -/
theorem kept_sublist (config : LsmtConfig) (guards : List Slice) (level : Nat)
    {work : Work} {entries : List Entry} (settled : work.Settled)
    (bounded : ∀ entry ∈ entries, entry.sequence < kMaxSequenceNumber) :
    (work.kept config guards level entries).Sublist
      (firstVersions work.currentUserKey entries) := by
  induction entries generalizing work with
  | nil => exact List.Sublist.refl _
  | cons entry entries ih =>
      have rest := ih (Settled.round config guards level work (bounded entry List.mem_cons_self))
        (fun other later => bounded other (List.mem_cons_of_mem _ later))
      rw [round_currentUserKey] at rest
      rw [kept, firstVersions]
      by_cases hidden : work.currentUserKey = some entry.userKey
      · rw [if_pos hidden, hidden, roundDrops_of_hidden config level
          ((settled.hides_iff config entry).mpr hidden)]
        exact rest
      · rw [if_neg hidden]
        split
        · exact rest.cons entry
        · exact rest.cons_cons entry

/-- Without deletions exactly the first versions stay. -/
theorem kept_of_values (config : LsmtConfig) (guards : List Slice) (level : Nat)
    {work : Work} {entries : List Entry} (settled : work.Settled)
    (bounded : ∀ entry ∈ entries, entry.sequence < kMaxSequenceNumber)
    (values : ∀ entry ∈ entries, entry.IsValue) :
    work.kept config guards level entries =
      firstVersions work.currentUserKey entries := by
  induction entries generalizing work with
  | nil => rfl
  | cons entry entries ih =>
      have rest := ih (Settled.round config guards level work (bounded entry List.mem_cons_self))
        (fun other later => bounded other (List.mem_cons_of_mem _ later))
        (fun other later => values other (List.mem_cons_of_mem _ later))
      rw [round_currentUserKey] at rest
      rw [kept, firstVersions, rest]
      by_cases hidden : work.currentUserKey = some entry.userKey
      · rw [if_pos hidden, hidden, roundDrops_of_hidden config level
          ((settled.hides_iff config entry).mpr hidden)]
        rfl
      · rw [if_neg hidden, roundDrops_of_value config level
          (fun hides => hidden ((settled.hides_iff config entry).mp hides))
          (values entry List.mem_cons_self)]
        rfl

/-- No output is empty. -/
def Filled (work : Work) : Prop :=
  (∀ output ∈ work.outputs, output ≠ []) ∧ ∀ entries ∈ work.builder, entries ≠ []

theorem Filled.finish {work : Work} (filled : work.Filled) : work.finish.Filled := by
  rw [Work.finish]
  split
  · exact filled
  · rename_i entries isOpen
    refine ⟨?_, by simp⟩
    intro output member
    rcases List.mem_append.mp member with closed | last
    · exact filled.1 output closed
    · rw [List.mem_singleton.mp last]
      exact filled.2 entries isOpen

theorem Filled.round (config : LsmtConfig) (guards : List Slice) (level : Nat)
    {work : Work} (entry : Entry) (filled : work.Filled) :
    (work.round config guards level entry).Filled := by
  have looked : Filled (work.shouldStopBefore config entry.key).2 := filled
  have stopped : (work.stopBefore config entry.key).Filled := by
    simp only [stopBefore]
    split
    · exact looked.finish
    · exact looked
  obtain ⟨sameOutputs, sameBuilder, -⟩ :=
    drops_keeps level entry (work.stopBefore config entry.key)
  have judged : Filled ((work.stopBefore config entry.key).drops level entry).2 := by
    rw [Filled, sameOutputs, sameBuilder]
    exact stopped
  have guarded : Filled
      (((work.stopBefore config entry.key).drops level entry).2.passGuard guards entry) := by
    rw [passGuard]
    split
    · exact judged
    · split
      · exact judged.finish
      · exact judged
  simp only [Work.round]
  split
  · exact judged
  · have added : Filled { ((work.stopBefore config entry.key).drops level entry
        ).2.passGuard guards entry with
        builder := some ((((work.stopBefore config entry.key).drops level entry
          ).2.passGuard guards entry).builder.getD [] ++ [entry]) } :=
      ⟨guarded.1, by simp⟩
    simp only [add]
    split
    · exact added.finish
    · exact added

theorem Filled.foldl (config : LsmtConfig) (guards : List Slice) (level : Nat)
    {work : Work} (entries : List Entry) (filled : work.Filled) :
    (entries.foldl (Work.round config guards level) work).Filled := by
  induction entries generalizing work with
  | nil => exact filled
  | cons entry entries ih => exact ih (filled.round config guards level entry)

theorem finish_builder (work : Work) : work.finish.builder = none := by
  rw [finish]
  split
  · assumption
  · rfl

end Work

/-! ## `DoCompactionWorkImpl` -/

/-- The state in which the loop starts. -/
def startWork (guards : List Slice) (compaction : Compaction) (levels : Levels)
    (input : List Entry) : Work where
  outputs := []
  builder := none
  currentUserKey := none
  lastSequence := kMaxSequenceNumber
  guardIndex := (input.head?.map (fun entry => firstGuard guards entry.userKey)).getD 0
  grandparents := compaction.grandparents
  seenKey := false
  overlappedBytes := 0
  ahead := levels

section Outputs

variable (config : LsmtConfig) (guards : List Slice) (compaction : Compaction)
  (levels : Levels) {input : List Entry}

/-- The outputs, joined, are what the loop keeps. -/
theorem doCompactionWorkImpl_flatten :
    (doCompactionWorkImpl config guards compaction levels input).flatten =
      (startWork guards compaction levels input).kept config guards compaction.level
        input := by
  have whole := Work.foldl_written config guards compaction.level
    (startWork guards compaction levels input) input
  rw [← Work.finish_written, Work.written, Work.finish_builder] at whole
  simpa [startWork, Work.written, doCompactionWorkImpl] using whole

theorem doCompactionWorkImpl_ne_nil {output : List Entry}
    (member : output ∈ doCompactionWorkImpl config guards compaction levels input) :
    output ≠ [] := by
  have start : (startWork guards compaction levels input).Filled :=
    ⟨by simp [startWork], by simp [startWork]⟩
  exact (start.foldl config guards compaction.level input).finish.1 output member

theorem startWork_settled : (startWork guards compaction levels input).Settled :=
  fun known => absurd rfl known

theorem doCompactionWorkImpl_sublist
    (bounded : ∀ entry ∈ input, entry.sequence < kMaxSequenceNumber) :
    (doCompactionWorkImpl config guards compaction levels input).flatten.Sublist
      (firstVersions none input) := by
  rw [doCompactionWorkImpl_flatten]
  exact Work.kept_sublist config guards compaction.level
    (startWork_settled guards compaction levels) bounded

theorem doCompactionWorkImpl_of_values
    (bounded : ∀ entry ∈ input, entry.sequence < kMaxSequenceNumber)
    (values : ∀ entry ∈ input, entry.IsValue) :
    (doCompactionWorkImpl config guards compaction levels input).flatten =
      firstVersions none input := by
  rw [doCompactionWorkImpl_flatten]
  exact Work.kept_of_values config guards compaction.level
    (startWork_settled guards compaction levels) bounded values

/-- Every output entry is an input entry. -/
theorem mem_input_of_mem_output
    (bounded : ∀ entry ∈ input, entry.sequence < kMaxSequenceNumber)
    {output : List Entry} {entry : Entry}
    (isOutput : output ∈ doCompactionWorkImpl config guards compaction levels input)
    (member : entry ∈ output) : entry ∈ input := by
  have joined : entry ∈
      (doCompactionWorkImpl config guards compaction levels input).flatten :=
    List.mem_flatten.mpr ⟨output, isOutput, member⟩
  exact (firstVersions_sublist none input).subset
    ((doCompactionWorkImpl_sublist config guards compaction levels bounded).subset joined)

/-- From a sorted input the user keys of all outputs ascend strictly. -/
theorem doCompactionWorkImpl_strict
    (bounded : ∀ entry ∈ input, entry.sequence < kMaxSequenceNumber)
    (ascending : Ascending input) :
    (doCompactionWorkImpl config guards compaction levels input).flatten.Pairwise
      (fun front behind => front.userKey < behind.userKey) :=
  (firstVersions_strict ascending none).sublist
    (doCompactionWorkImpl_sublist config guards compaction levels bounded)

end Outputs

end AhaTree
