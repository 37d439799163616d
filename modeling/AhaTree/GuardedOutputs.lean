import AhaTree.DeletionMarks
import AhaTree.Lib.Guards

/-!
# Outputs between pivots

With the pivots of a page as guards, `DoCompactionWorkImpl` closes an output when
the next entry reaches the guard behind the current one, and moves on by one
guard.  After a jump over several guards the index lags behind, and then every
entry closes the output of the one before.
-/

namespace AhaTree

open Lsmt

/-! ## One entry -/

namespace Work

variable {config : LsmtConfig} {guards : List Slice} {level : Nat} {work : Work}
  {entry : Entry}

/-- The outputs, with the open one, keep to the guards behind the first one, of
which the loop has passed as many as its index says. -/
def Keeps (guards : List Slice) (work : Work) : Prop :=
  Lib.Guarded Entry.userKey guards.tail work.outputs (work.builder.getD []) work.guardIndex

/-- The open output has no key above the bound, and the bound has reached all
guards that have been passed. -/
structure UpTo (guards : List Slice) (bound : Slice) (work : Work) : Prop where
  below : ∀ other ∈ work.builder.getD [], other.userKey ≤ bound
  reached : ∀ guard ∈ guards.tail.take work.guardIndex, guard ≤ bound

theorem UpTo.mono {bound later : Slice} (upTo : work.UpTo guards bound)
    (order : bound ≤ later) : work.UpTo guards later where
  below other member := (upTo.below other member).trans order
  reached guard member := (upTo.reached guard member).trans order

@[simp] theorem finish_guardIndex (work : Work) :
    work.finish.guardIndex = work.guardIndex := by
  rw [finish]
  split <;> rfl

theorem Keeps.finish (keeps : work.Keeps guards) : work.finish.Keeps guards := by
  rw [Work.finish]
  split
  · exact keeps
  · rename_i entries isOpen
    rw [Keeps, isOpen] at keeps
    exact Lib.Guarded.close keeps

theorem UpTo.finish {bound : Slice} (upTo : work.UpTo guards bound) :
    work.finish.UpTo guards bound where
  below other member := by
    rw [finish_builder] at member
    cases member
  reached guard member := by
    rw [finish_guardIndex] at member
    exact upTo.reached guard member

/-- `ShouldStopBefore` may close the output anywhere. -/
theorem Keeps.stopBefore (keeps : work.Keeps guards) (key : InternalKey) :
    (work.stopBefore config key).Keeps guards := by
  have looked : (work.shouldStopBefore config key).2.Keeps guards := keeps
  simp only [Work.stopBefore]
  split
  · exact looked.finish
  · exact looked

theorem UpTo.stopBefore {bound : Slice} (upTo : work.UpTo guards bound) (key : InternalKey) :
    (work.stopBefore config key).UpTo guards bound := by
  have looked : (work.shouldStopBefore config key).2.UpTo guards bound :=
    ⟨upTo.below, upTo.reached⟩
  simp only [Work.stopBefore]
  split
  · exact looked.finish
  · exact looked

theorem drops_guardIndex (level : Nat) (entry : Entry) (work : Work) :
    (work.drops level entry).2.guardIndex = work.guardIndex := by
  rw [drops]
  cases work.hides entry with
  | true => rfl
  | false =>
      cases entry.key.type with
      | kTypeValue => rfl
      | kTypeDeletion => rfl

theorem Keeps.drops (keeps : work.Keeps guards) :
    (work.drops level entry).2.Keeps guards := by
  obtain ⟨sameOutputs, sameBuilder, -⟩ := drops_keeps level entry work
  rw [Keeps, sameOutputs, sameBuilder, drops_guardIndex]
  exact keeps

theorem UpTo.drops {bound : Slice} (upTo : work.UpTo guards bound) :
    (work.drops level entry).2.UpTo guards bound := by
  obtain ⟨-, sameBuilder, -⟩ := drops_keeps level entry work
  refine ⟨?_, ?_⟩
  · rw [sameBuilder]
    exact upTo.below
  · rw [drops_guardIndex]
    exact upTo.reached

theorem passGuard_of_before
    (before : ∀ guard ∈ guards.tail[work.guardIndex]?, entry.userKey < guard) :
    work.passGuard guards entry = work := by
  rw [List.getElem?_tail] at before
  rw [passGuard]
  cases isNext : guards[work.guardIndex + 1]? with
  | none => rfl
  | some guard =>
      refine if_neg ?_
      rw [Slice.compare_isLE, not_le]
      exact before guard isNext

theorem passGuard_of_reached {guard : Slice}
    (isNext : guards.tail[work.guardIndex]? = some guard) (reaches : guard ≤ entry.userKey) :
    work.passGuard guards entry =
      { work.finish with guardIndex := work.guardIndex + 1 } := by
  rw [List.getElem?_tail] at isNext
  rw [passGuard, isNext]
  exact if_pos (Slice.compare_isLE.mpr reaches)

/-- Closing a big output afterwards does no harm. -/
theorem add_spec {bound : Slice}
    (keeps : Keeps guards { work with builder := some (work.builder.getD [] ++ [entry]) })
    (upTo : UpTo guards bound { work with builder := some (work.builder.getD [] ++ [entry]) }) :
    (work.add config guards entry).Keeps guards ∧
      (work.add config guards entry).UpTo guards bound := by
  simp only [add]
  split
  · exact ⟨keeps.finish, upTo.finish⟩
  · exact ⟨keeps, upTo⟩

/-- An entry that is not dropped. -/
theorem place_spec (ascending : guards.Pairwise (· < ·)) (keeps : work.Keeps guards)
    (upTo : work.UpTo guards entry.userKey) :
    ((work.passGuard guards entry).add config guards entry).Keeps guards ∧
      ((work.passGuard guards entry).add config guards entry).UpTo guards entry.userKey := by
  have increasing : guards.tail.Pairwise (· < ·) := ascending.sublist (List.tail_sublist _)
  by_cases before : ∀ guard ∈ guards.tail[work.guardIndex]?, entry.userKey < guard
  · rw [passGuard_of_before before]
    refine add_spec (keeps.add increasing upTo.below before upTo.reached) ⟨?_, upTo.reached⟩
    intro other member
    rcases List.mem_append.mp member with older | last
    · exact upTo.below other older
    · rw [List.mem_singleton.mp last]
  · push Not at before
    obtain ⟨guard, isNext, reaches⟩ := before
    have closed := finish_builder work
    have finished : Lib.Guarded Entry.userKey guards.tail work.finish.outputs []
        work.guardIndex := by
      have kept := keeps.finish
      rwa [Keeps, closed, finish_guardIndex] at kept
    obtain ⟨passed, known⟩ := finished.pass isNext reaches upTo.reached
    rw [passGuard_of_reached isNext reaches]
    refine add_spec ?_ ⟨?_, known⟩
    · rw [Keeps, closed]
      exact passed
    · intro other member
      rw [closed] at member
      rw [List.mem_singleton.mp member]

/-- A round keeps to the guards, and its entry is the new bound. -/
theorem round_spec (ascending : guards.Pairwise (· < ·)) (keeps : work.Keeps guards)
    (upTo : work.UpTo guards entry.userKey) :
    (work.round config guards level entry).Keeps guards ∧
      (work.round config guards level entry).UpTo guards entry.userKey := by
  have judged := @Keeps.drops guards level _ entry
    (@Keeps.stopBefore config guards work keeps entry.key)
  have bounded := @UpTo.drops guards level _ entry entry.userKey
    (@UpTo.stopBefore config guards work _ upTo entry.key)
  simp only [round]
  split
  · exact ⟨judged, bounded⟩
  · exact place_spec ascending judged bounded

theorem foldl_keeps (ascending : guards.Pairwise (· < ·)) {entries : List Entry}
    (sorted : Ascending entries) (keeps : work.Keeps guards)
    (upTo : ∀ entry ∈ entries, work.UpTo guards entry.userKey) :
    (entries.foldl (Work.round config guards level) work).Keeps guards := by
  induction entries generalizing work with
  | nil => exact keeps
  | cons entry entries ih =>
      obtain ⟨ahead, sorted⟩ := List.pairwise_cons.mp sorted
      obtain ⟨kept, bounded⟩ := @round_spec config guards level work entry ascending keeps
        (upTo entry List.mem_cons_self)
      exact ih sorted kept (fun later member => bounded.mono (ahead later member))

end Work

/-! ## The whole loop -/

/-- The guards up to the first index have been reached. -/
theorem firstGuard_reached (guards : List Slice) (key : Slice) :
    ∀ guard ∈ guards.tail.take (firstGuard guards key), guard ≤ key := by
  intro guard member
  cases guards with
  | nil => simp at member
  | cons first guards =>
      rw [firstGuard, List.takeWhile_cons] at member
      by_cases passed : (Slice.compare first key).isLE = true
      · rw [if_pos passed, List.length_cons, Nat.add_sub_cancel, List.tail_cons,
          ← List.prefix_iff_eq_take.mp (List.takeWhile_prefix _)] at member
        exact Slice.compare_isLE.mp
          (List.mem_takeWhile_imp (p := fun guard => (Slice.compare guard key).isLE) member)
      · rw [if_neg passed] at member
        simp at member

section Outputs

variable (config : LsmtConfig) {guards : List Slice} (ascending : guards.Pairwise (· < ·))
  (compaction : Compaction) (levels : Levels) {input : List Entry}
  (sorted : Ascending input)

include ascending sorted

/-- No pivot but the first one parts an output. -/
theorem doCompactionWorkImpl_within {output : List Entry}
    (member : output ∈ doCompactionWorkImpl config guards compaction levels input) :
    Lib.Within Entry.userKey guards.tail output := by
  have started : (startWork guards compaction levels input).Keeps guards := Lib.Guarded.start
  have upTo : ∀ entry ∈ input,
      (startWork guards compaction levels input).UpTo guards entry.userKey := by
    intro entry isInput
    refine ⟨by simp [startWork], ?_⟩
    cases input with
    | nil => cases isInput
    | cons first input =>
        intro guard isGuard
        have least : first.userKey ≤ entry.userKey := by
          rcases List.mem_cons.mp isInput with rfl | later
          · exact le_rfl
          · exact (List.pairwise_cons.mp sorted).1 entry later
        exact (firstGuard_reached guards first.userKey guard isGuard).trans least
  have kept := (@Work.foldl_keeps config guards compaction.level _ ascending input sorted started
    upTo).finish
  exact kept.closedWithin output member

end Outputs

/-! ## What the outputs are -/

/-- The interval of a pivot ends in front of the next one; that of the first pivot
also has all keys below it. -/
def KeyInInterval (pivots : List Slice) (index : Nat) (key : Slice) : Prop :=
  (0 < index → ∀ pivot ∈ pivots[index]?, pivot ≤ key) ∧ ∀ next ∈ pivots[index + 1]?, key < next

instance (entry : Entry) : Decidable entry.IsValue :=
  inferInstanceAs (Decidable (entry.key.type = .kTypeValue))

/-- The newest versions, without the deletions that no deeper file needs. -/
def survivors (levels : Levels) (level : Nat) (input : List Entry) : List Entry :=
  (firstVersions none input).filter (fun entry =>
    entry.IsValue ∨ CoveredDeeper levels level entry.userKey)

/-- The outputs of a compaction of a level with the pivots of a page. -/
structure FitsPivots (pivots : List Slice) (levels : Levels) (level : Nat)
    (input : List Entry) (outputs : List (List Entry)) : Prop where
  filled : ∀ output ∈ outputs, output ≠ []
  interval : ∀ output ∈ outputs, ∃ index < pivots.length,
    ∀ entry ∈ output, KeyInInterval pivots index entry.userKey
  disjoint : outputs.Pairwise (fun earlier later =>
    ∀ front ∈ earlier, ∀ behind ∈ later, front.userKey < behind.userKey)
  flatten : outputs.flatten = survivors levels level input

theorem exists_interval {pivots : List Slice} (ascending : pivots.Pairwise (· < ·))
    (nonempty : pivots ≠ []) {output : List Entry} (filled : output ≠ [])
    (within : Lib.Within Entry.userKey pivots.tail output) :
    ∃ index < pivots.length, ∀ entry ∈ output, KeyInInterval pivots index entry.userKey := by
  obtain ⟨first, others, rfl⟩ := List.exists_cons_of_ne_nil filled
  obtain ⟨index, inside, passed, ahead⟩ := within.exists_index
    (ascending.sublist (List.tail_sublist _)) List.mem_cons_self
  obtain ⟨pivot, pivots, rfl⟩ := List.exists_cons_of_ne_nil nonempty
  refine ⟨index, Nat.lt_succ_of_le inside, ?_⟩
  intro entry member
  refine ⟨?_, ?_⟩
  · intro positive guard isGuard
    obtain ⟨before, rfl⟩ := Nat.exists_eq_add_of_lt positive
    rw [Nat.zero_add] at isGuard passed
    refine passed guard ?_ entry member
    rw [List.getElem?_cons_succ] at isGuard
    rw [List.tail_cons, List.mem_take_iff_getElem]
    obtain ⟨isInside, rfl⟩ := List.getElem?_eq_some_iff.mp isGuard
    exact ⟨before, by omega, rfl⟩
  · intro next isNext
    refine ahead next ?_ entry member
    rw [List.getElem?_cons_succ] at isNext
    exact List.mem_of_getElem? (List.getElem?_drop (j := 0) ▸ isNext)

section Outputs

variable (config : LsmtConfig) {pivots : List Slice} (compaction : Compaction)
  {levels : Levels} {input : List Entry}
  (deepSorted : ∀ deeper ∈ Work.deeperLevels compaction.level,
    (levels deeper).Pairwise Apart)
  (bounded : ∀ entry ∈ input, entry.sequence < kMaxSequenceNumber)
  (sorted : Ascending input)

include deepSorted bounded sorted

/-- Joined, the outputs are what the input leaves. -/
theorem doCompactionWorkImpl_flatten_eq_survivors (guards : List Slice) :
    (doCompactionWorkImpl config guards compaction levels input).flatten =
      survivors levels compaction.level input := by
  have strict := doCompactionWorkImpl_strict config guards compaction levels bounded sorted
  have survivorsStrict : (survivors levels compaction.level input).Pairwise
      (fun front behind => front.userKey < behind.userKey) :=
    (firstVersions_strict sorted none).sublist List.filter_sublist
  have different : ∀ {entries : List Entry}, entries.Pairwise (fun front behind =>
      front.userKey < behind.userKey) → entries.Nodup :=
    fun order => order.imp (by
      intro front behind less same
      exact absurd less (same ▸ lt_irrefl _))
  refine List.Perm.eq_of_pairwise ?_ strict survivorsStrict
    ((List.perm_ext_iff_of_nodup (different strict) (different survivorsStrict)).mpr ?_)
  · intro front behind _ _ less greater
    exact absurd less greater.asymm
  · intro entry
    rw [doCompactionWorkImpl_flatten, Work.mem_kept_iff config guards deepSorted
      (startWork_settled guards compaction levels) bounded sorted
      (fun _ _ => Work.Passes.refl _ _), survivors, List.mem_filter, decide_eq_true_eq]
    rfl

theorem doCompactionWorkImpl_fitsPivots (ascending : pivots.Pairwise (· < ·))
    (nonempty : pivots ≠ []) :
    FitsPivots pivots levels compaction.level input
      (doCompactionWorkImpl config pivots compaction levels input) where
  filled _ member := doCompactionWorkImpl_ne_nil config pivots compaction levels member
  interval _ member := exists_interval ascending nonempty
    (doCompactionWorkImpl_ne_nil config pivots compaction levels member)
    (doCompactionWorkImpl_within config ascending compaction levels sorted member)
  disjoint := (List.pairwise_flatten.mp
    (doCompactionWorkImpl_strict config pivots compaction levels bounded sorted)).2
  flatten := doCompactionWorkImpl_flatten_eq_survivors config compaction deepSorted bounded
    sorted pivots

end Outputs

end AhaTree
