import AhaTree.PageWriting
import AhaTree.Lib.Guards

/-!
# Guards of a tree compaction

The loop of `DoCompactionTreeWorkImpl` starts in front of the first guard, if its
input does, and leaves that state at the first key between the first and the
last guard.  A key that jumps over all of these leaves it there for good.
-/

namespace AhaTree

/-! ## The loop on live entries -/

namespace TreeWork

variable {config : LsmtConfig} {guards : List Slice} {maxOutputFileSize : Nat}
  {work : TreeWork} {entry : Entry}

/-- An entry that is not dropped. -/
def place (config : LsmtConfig) (guards : List Slice) (maxOutputFileSize : Nat)
    (work : TreeWork) (entry : Entry) : TreeWork :=
  ((work.leaveFront guards entry).passGuard guards entry).add config maxOutputFileSize entry

/-- The work without what decides about dropping. -/
def forget (work : TreeWork) : TreeWork :=
  { work with currentUserKey := none, lastSequence := 0 }

theorem finish_forget (work : TreeWork) : work.finish.forget = work.forget.finish := by
  obtain ⟨outputs, builder, -, -, -, -⟩ := work
  cases builder <;> rfl

theorem leaveFront_forget (work : TreeWork) :
    (work.leaveFront guards entry).forget = work.forget.leaveFront guards entry := by
  rw [leaveFront, leaveFront]
  cases left : (work.beyondGuard && enters guards entry) with
  | true =>
      have same : (work.forget.beyondGuard && enters guards entry) = true := left
      rw [if_pos rfl, if_pos same, ← finish_forget]
      rfl
  | false =>
      have same : (work.forget.beyondGuard && enters guards entry) = false := left
      rw [if_neg Bool.false_ne_true, if_neg (ne_true_of_eq_false same)]

theorem passGuard_of_beyond (beyond : work.beyondGuard = true) :
    work.passGuard guards entry = work :=
  if_pos beyond

theorem passGuard_of_before (entered : work.beyondGuard = false)
    (before : ∀ guard ∈ guards[work.guardIndex + 1]?, entry.userKey < guard) :
    work.passGuard guards entry = work := by
  rw [passGuard, if_neg (ne_true_of_eq_false entered)]
  cases isNext : guards[work.guardIndex + 1]? with
  | none => rfl
  | some guard =>
      refine if_neg ?_
      rw [Slice.compare_isLE, not_le]
      exact before guard isNext

theorem passGuard_of_reached (entered : work.beyondGuard = false) {guard : Slice}
    (isNext : guards[work.guardIndex + 1]? = some guard) (reaches : guard ≤ entry.userKey) :
    work.passGuard guards entry =
      { work.finish with guardIndex := work.guardIndex + 1 } := by
  rw [passGuard, if_neg (ne_true_of_eq_false entered), isNext]
  exact if_pos (Slice.compare_isLE.mpr reaches)

theorem passGuard_forget (work : TreeWork) :
    (work.passGuard guards entry).forget = work.forget.passGuard guards entry := by
  cases beyond : work.beyondGuard with
  | true =>
      rw [passGuard_of_beyond beyond, @passGuard_of_beyond guards work.forget entry beyond]
  | false =>
      by_cases before : ∀ guard ∈ guards[work.guardIndex + 1]?, entry.userKey < guard
      · rw [passGuard_of_before beyond before,
          @passGuard_of_before guards work.forget entry beyond before]
      · push Not at before
        obtain ⟨guard, isNext, reaches⟩ := before
        rw [passGuard_of_reached beyond isNext reaches,
          @passGuard_of_reached guards work.forget entry beyond _ isNext reaches, ← finish_forget]
        rfl

theorem add_forget (work : TreeWork) : (work.add config maxOutputFileSize entry).forget =
    work.forget.add config maxOutputFileSize entry := by
  simp only [add]
  change _ = if maxOutputFileSize ≤ config.buildingSize (work.builder.getD [] ++ [entry]) then
    finish (forget { work with builder := some (work.builder.getD [] ++ [entry]) })
    else forget { work with builder := some (work.builder.getD [] ++ [entry]) }
  split
  · exact finish_forget _
  · rfl

theorem place_forget (work : TreeWork) :
    (work.place config guards maxOutputFileSize entry).forget =
      work.forget.place config guards maxOutputFileSize entry := by
  rw [place, add_forget, passGuard_forget, leaveFront_forget, place]

/-- Only the live entries count. -/
theorem foldl_forget (work : TreeWork) (input : List Entry) :
    (input.foldl (round config guards maxOutputFileSize) work).forget =
      (nonDuplicates work.currentUserKey work.lastSequence input).foldl
        (place config guards maxOutputFileSize) work.forget := by
  induction input generalizing work with
  | nil => rfl
  | cons entry input ih =>
      obtain ⟨key, sequence⟩ := round_remembers config guards maxOutputFileSize work entry
      rw [List.foldl_cons, ih, key, sequence, nonDuplicates, round]
      by_cases hidden : (if work.currentUserKey = some entry.userKey then
          work.lastSequence else kMaxSequenceNumber) < kMaxSequenceNumber
      · rw [if_pos hidden, if_pos hidden]
        rfl
      · rw [if_neg hidden, if_neg hidden]
        cases entry.key.type with
        | kTypeDeletion => rfl
        | kTypeValue =>
            rw [List.foldl_cons]
            exact congrArg (List.foldl _ · _) (place_forget (work.next entry))

theorem finish_outputs (work : TreeWork) :
    work.finish.outputs = work.outputs ++ work.builder.toList := by
  rw [finish]
  split
  · rename_i closed
    rw [closed, Option.toList_none, List.append_nil]
  · rename_i entries isOpen
    rw [isOpen]
    rfl

@[simp] theorem finish_guardIndex (work : TreeWork) :
    work.finish.guardIndex = work.guardIndex := by
  rw [finish]
  split <;> rfl

@[simp] theorem finish_beyondGuard (work : TreeWork) :
    work.finish.beyondGuard = work.beyondGuard := by
  rw [finish]
  split <;> rfl

/-! ## Guarded outputs -/

/-- The outputs, with the open one, keep to the guards; `index` of these are
passed. -/
def Keeps (guards : List Slice) (index : Nat) (work : TreeWork) : Prop :=
  Lib.Guarded Entry.userKey guards work.outputs (work.builder.getD []) index

theorem Keeps.finish {index : Nat} (keeps : work.Keeps guards index) :
    work.finish.Keeps guards index := by
  rw [TreeWork.finish]
  split
  · exact keeps
  · rename_i entries isOpen
    rw [Keeps, isOpen] at keeps
    exact Lib.Guarded.close keeps

/-- Without an open output the guards may be counted anew. -/
theorem Keeps.move {index : Nat} (keeps : work.Keeps guards index)
    (closed : work.builder.getD [] = []) (other : Nat) : work.Keeps guards other := by
  rw [Keeps, closed] at keeps ⊢
  exact Lib.Guarded.move keeps other

theorem Keeps.add {index : Nat} (keeps : work.Keeps guards index)
    (ascending : guards.Pairwise (· < ·))
    (behind : ∀ other ∈ work.builder.getD [], other.userKey ≤ entry.userKey)
    (before : ∀ guard ∈ guards[index]?, entry.userKey < guard)
    (reached : ∀ guard ∈ guards.take index, guard ≤ entry.userKey) :
    (work.add config maxOutputFileSize entry).Keeps guards index := by
  have longer : Keeps guards index
      { work with builder := some (work.builder.getD [] ++ [entry]) } :=
    Lib.Guarded.add keeps ascending behind before reached
  simp only [TreeWork.add]
  split
  · exact longer.finish
  · exact longer

theorem Keeps.allWithin {index : Nat} (keeps : work.Keeps guards index) :
    ∀ output ∈ work.finish.outputs, Lib.Within Entry.userKey guards output := by
  intro output member
  rw [finish_outputs] at member
  rcases List.mem_append.mp member with closed | isOpen
  · exact keeps.closedWithin output closed
  · have within := keeps.within
    rw [Option.mem_toList.mp isOpen] at within
    exact within

/-- What is open after an entry has been added. -/
theorem mem_add_builder {other : Entry}
    (member : other ∈ (work.add config maxOutputFileSize entry).builder.getD []) :
    other ∈ work.builder.getD [] ∨ other = entry := by
  simp only [TreeWork.add] at member
  split at member
  · rw [finish_builder] at member
    cases member
  · rcases List.mem_append.mp member with older | last
    · exact .inl older
    · exact .inr (List.mem_singleton.mp last)

/-! ## Between the guards -/

/-- The loop is past the first guard, and passes the others one by one. -/
structure Inside (guards : List Slice) (work : TreeWork) : Prop where
  entered : work.beyondGuard = false
  keeps : work.Keeps guards (work.guardIndex + 1)

@[simp] theorem add_guardIndex (work : TreeWork) :
    (work.add config maxOutputFileSize entry).guardIndex = work.guardIndex := by
  simp only [add]
  split
  · exact finish_guardIndex _
  · rfl

@[simp] theorem add_beyondGuard (work : TreeWork) :
    (work.add config maxOutputFileSize entry).beyondGuard = work.beyondGuard := by
  simp only [add]
  split
  · exact finish_beyondGuard _
  · rfl

theorem leaveFront_of_entered (entered : work.beyondGuard = false) :
    work.leaveFront guards entry = work :=
  if_neg (by simp [entered])

/-- One entry between the guards. -/
theorem Inside.place (inside : work.Inside guards) (ascending : guards.Pairwise (· < ·))
    (behind : ∀ other ∈ work.builder.getD [], other.userKey ≤ entry.userKey)
    (reached : ∀ guard ∈ guards.take (work.guardIndex + 1), guard ≤ entry.userKey) :
    (work.place config guards maxOutputFileSize entry).Inside guards ∧
      (∀ guard ∈ guards.take
        ((work.place config guards maxOutputFileSize entry).guardIndex + 1),
        guard ≤ entry.userKey) ∧
      ∀ other ∈ (work.place config guards maxOutputFileSize entry).builder.getD [],
        other.userKey ≤ entry.userKey := by
  rw [TreeWork.place, leaveFront_of_entered inside.entered]
  by_cases before : ∀ guard ∈ guards[work.guardIndex + 1]?, entry.userKey < guard
  · rw [passGuard_of_before inside.entered before, add_guardIndex]
    refine ⟨⟨?_, ?_⟩, reached, ?_⟩
    · rw [add_beyondGuard]
      exact inside.entered
    · rw [add_guardIndex]
      exact inside.keeps.add ascending behind before reached
    · intro other member
      rcases mem_add_builder member with older | rfl
      · exact behind other older
      · exact le_rfl
  · push Not at before
    obtain ⟨guard, isNext, reaches⟩ := before
    rw [passGuard_of_reached inside.entered isNext reaches, add_guardIndex]
    have closed : work.finish.builder = none := finish_builder work
    have finished : Lib.Guarded Entry.userKey guards work.finish.outputs []
        (work.guardIndex + 1) := by
      have keeps := inside.keeps.finish
      rwa [Keeps, closed] at keeps
    obtain ⟨passed, known⟩ := finished.pass isNext reaches reached
    refine ⟨⟨?_, ?_⟩, known, ?_⟩
    · rw [add_beyondGuard]
      exact (finish_beyondGuard work).trans inside.entered
    · rw [add_guardIndex]
      have longer : Keeps guards (work.guardIndex + 1 + 1)
          { work.finish with
            guardIndex := work.guardIndex + 1
            builder := some (work.finish.builder.getD [] ++ [entry]) } := by
        rw [Keeps, closed]
        exact passed
      simp only [TreeWork.add]
      split
      · exact longer.finish
      · exact longer
    · intro other member
      rcases mem_add_builder member with older | rfl
      · rw [closed] at older
        cases older
      · exact le_rfl

theorem Inside.foldl {entries : List Entry} (inside : work.Inside guards)
    (ascending : guards.Pairwise (· < ·))
    (sorted : entries.Pairwise (fun front behind => front.userKey < behind.userKey))
    (behind : ∀ other ∈ work.builder.getD [], ∀ entry ∈ entries,
      other.userKey ≤ entry.userKey)
    (reached : ∀ guard ∈ guards.take (work.guardIndex + 1), ∀ entry ∈ entries,
      guard ≤ entry.userKey) :
    (entries.foldl (TreeWork.place config guards maxOutputFileSize) work).Inside guards := by
  induction entries generalizing work with
  | nil => exact inside
  | cons entry entries ih =>
      obtain ⟨first, sorted⟩ := List.pairwise_cons.mp sorted
      obtain ⟨placed, known, below⟩ := @place config guards maxOutputFileSize work entry inside
        ascending (fun other member => behind other member entry List.mem_cons_self)
        (fun guard member => reached guard member entry List.mem_cons_self)
      refine ih placed sorted ?_ ?_
      · intro other member later isLater
        exact (below other member).trans (first later isLater).le
      · intro guard member later isLater
        exact (known guard member).trans (first later isLater).le

/-! ## In front of the guards -/

/-- The open output after entries that no guard parts. -/
def openOutput (config : LsmtConfig) (maxOutputFileSize : Nat) (current : List Entry)
    (entries : List Entry) : List Entry :=
  entries.foldl (fun current entry =>
    if maxOutputFileSize ≤ config.buildingSize (current ++ [entry]) then []
    else current ++ [entry]) current

theorem mem_openOutput {current entries : List Entry} {other : Entry}
    (member : other ∈ openOutput config maxOutputFileSize current entries) :
    other ∈ current ∨ other ∈ entries := by
  induction entries generalizing current with
  | nil => exact .inl member
  | cons entry entries ih =>
      rw [openOutput, List.foldl_cons] at member
      rcases ih member with inside | later
      · split at inside
        · cases inside
        · rcases List.mem_append.mp inside with older | last
          · exact .inl older
          · exact .inr (List.mem_singleton.mp last ▸ List.mem_cons_self)
      · exact .inr (List.mem_cons_of_mem _ later)

theorem add_builder (work : TreeWork) :
    (work.add config maxOutputFileSize entry).builder.getD [] =
      openOutput config maxOutputFileSize (work.builder.getD []) [entry] := by
  simp only [add, openOutput, List.foldl_cons, List.foldl_nil]
  split
  · rw [finish_builder]
    rfl
  · rfl

/-- An entry that does not lead in between the guards is only added. -/
theorem place_of_beyond (beyond : work.beyondGuard = true)
    (outside : enters guards entry = false) :
    work.place config guards maxOutputFileSize entry =
      work.add config maxOutputFileSize entry := by
  have stays : work.leaveFront guards entry = work := if_neg (by simp [outside])
  rw [place, stays, passGuard_of_beyond beyond]

theorem foldl_of_beyond {entries : List Entry} (beyond : work.beyondGuard = true)
    (outside : ∀ entry ∈ entries, enters guards entry = false) :
    entries.foldl (place config guards maxOutputFileSize) work =
        entries.foldl (fun work entry => work.add config maxOutputFileSize entry) work ∧
      (entries.foldl (place config guards maxOutputFileSize) work).beyondGuard = true ∧
      (entries.foldl (place config guards maxOutputFileSize) work).guardIndex =
        work.guardIndex ∧
      (entries.foldl (place config guards maxOutputFileSize) work).builder.getD [] =
        openOutput config maxOutputFileSize (work.builder.getD []) entries := by
  induction entries generalizing work with
  | nil => exact ⟨rfl, beyond, rfl, rfl⟩
  | cons entry entries ih =>
      have first := @place_of_beyond config guards maxOutputFileSize work entry beyond
        (outside entry List.mem_cons_self)
      have still : (work.add config maxOutputFileSize entry).beyondGuard = true := by
        rw [add_beyondGuard]
        exact beyond
      obtain ⟨same, later, index, builder⟩ := ih still
        (fun other member => outside other (List.mem_cons_of_mem _ member))
      rw [List.foldl_cons, List.foldl_cons, first]
      refine ⟨same, later, index.trans (add_guardIndex work), ?_⟩
      rw [builder, add_builder]
      rfl

/-- A row of entries in front of the next guard. -/
theorem Keeps.foldl_add {index : Nat} {entries : List Entry}
    (keeps : work.Keeps guards index) (ascending : guards.Pairwise (· < ·))
    (sorted : entries.Pairwise (fun front behind => front.userKey < behind.userKey))
    (behind : ∀ other ∈ work.builder.getD [], ∀ entry ∈ entries,
      other.userKey ≤ entry.userKey)
    (before : ∀ entry ∈ entries, ∀ guard ∈ guards[index]?, entry.userKey < guard)
    (reached : ∀ entry ∈ entries, ∀ guard ∈ guards.take index, guard ≤ entry.userKey) :
    (entries.foldl (fun work entry => work.add config maxOutputFileSize entry)
      work).Keeps guards index := by
  induction entries generalizing work with
  | nil => exact keeps
  | cons entry entries ih =>
      obtain ⟨first, sorted⟩ := List.pairwise_cons.mp sorted
      have added := @Keeps.add config guards maxOutputFileSize work entry index keeps ascending
        (fun other member => behind other member entry List.mem_cons_self)
        (before entry List.mem_cons_self) (reached entry List.mem_cons_self)
      refine ih added sorted ?_
        (fun other member => before other (List.mem_cons_of_mem _ member))
        (fun other member => reached other (List.mem_cons_of_mem _ member))
      intro other member later isLater
      rcases mem_add_builder member with older | rfl
      · exact behind other older later (List.mem_cons_of_mem _ isLater)
      · exact (first later isLater).le

/-! ## Entries of one output -/

/-- Both entries are in one output. -/
def Together (work : TreeWork) (left right : Entry) : Prop :=
  (∃ output ∈ work.outputs, left ∈ output ∧ right ∈ output) ∨
    (left ∈ work.builder.getD [] ∧ right ∈ work.builder.getD [])

theorem Together.finish {left right : Entry} (together : work.Together left right) :
    ∃ output ∈ work.finish.outputs, left ∈ output ∧ right ∈ output := by
  rw [finish_outputs]
  rcases together with ⟨output, member, both⟩ | ⟨isLeft, isRight⟩
  · exact ⟨output, List.mem_append_left _ member, both⟩
  · cases isOpen : work.builder with
    | none =>
        rw [isOpen] at isLeft
        cases isLeft
    | some entries =>
        rw [isOpen] at isLeft isRight
        exact ⟨entries, by simp, isLeft, isRight⟩

theorem Together.add {left right : Entry} (together : work.Together left right) :
    (work.add config maxOutputFileSize entry).Together left right := by
  have longer : Together { work with
      builder := some (work.builder.getD [] ++ [entry]) } left right :=
    together.imp_right (And.imp (List.mem_append_left _) (List.mem_append_left _))
  simp only [TreeWork.add]
  split
  · exact .inl longer.finish
  · exact longer

/-- An entry is added to those of the open output. -/
theorem together_add {left : Entry} (isOpen : left ∈ work.builder.getD []) :
    (work.add config maxOutputFileSize entry).Together left entry := by
  have longer : Together { work with
      builder := some (work.builder.getD [] ++ [entry]) } left entry :=
    .inr ⟨List.mem_append_left _ isOpen, List.mem_append_right _ (List.mem_singleton_self _)⟩
  simp only [TreeWork.add]
  split
  · exact .inl longer.finish
  · exact longer

theorem Together.foldl {left right : Entry} {entries : List Entry}
    (together : work.Together left right) :
    (entries.foldl (fun work entry => work.add config maxOutputFileSize entry)
      work).Together left right := by
  induction entries generalizing work with
  | nil => exact together
  | cons entry entries ih => exact ih (Together.add together)

/-! ## When the front is left too late -/

theorem enters_iff {first : Slice} {rest : List Slice} :
    enters (first :: rest) entry = true ↔ first ≤ entry.userKey ∧
      (rest = [] ∨ entry.userKey < rest.getLast?.getD first) := by
  cases rest with
  | nil => simp [enters]
  | cons second rest => simp [enters]

/-- Some keys in front of the first guard are in an open output when a key behind
the last guard comes, and no key has come in between. -/
def JumpsGuards (config : LsmtConfig) (guards : List Slice) (maxOutputFileSize : Nat)
    (entries : List Entry) : Prop :=
  match guards with
  | [] => False
  | first :: rest =>
      rest ≠ [] ∧
      openOutput config maxOutputFileSize []
        (entries.filter (fun entry => entry.userKey < first)) ≠ [] ∧
      (∀ entry ∈ entries, first ≤ entry.userKey →
        rest.getLast?.getD first ≤ entry.userKey) ∧
      ∃ entry ∈ entries, first ≤ entry.userKey

/-- The entries in front of a key, and the others. -/
theorem filter_append_filter {entries : List Entry} (bound : Slice)
    (sorted : entries.Pairwise (fun front behind => front.userKey < behind.userKey)) :
    entries = entries.filter (fun entry => entry.userKey < bound) ++
      entries.filter (fun entry => bound ≤ entry.userKey) := by
  induction entries with
  | nil => rfl
  | cons entry entries ih =>
      obtain ⟨first, sorted⟩ := List.pairwise_cons.mp sorted
      by_cases below : entry.userKey < bound
      · rw [List.filter_cons_of_pos (by simpa using below),
          List.filter_cons_of_neg (by simpa using below), List.cons_append, ← ih sorted]
      · have above : ∀ other ∈ entries, bound ≤ other.userKey := fun other member =>
          (not_lt.mp below).trans (first other member).le
        rw [List.filter_cons_of_neg (by simpa using below),
          List.filter_cons_of_pos (by simpa using below),
          List.filter_eq_nil_iff.mpr (by simpa using above),
          List.filter_eq_self.mpr (by simpa using above), List.nil_append]

theorem place_of_enters (beyond : work.beyondGuard = true)
    (enters : enters guards entry = true) :
    work.place config guards maxOutputFileSize entry =
      ({ work.finish with beyondGuard := false } : TreeWork).place config guards
        maxOutputFileSize entry := by
  have leaves : work.leaveFront guards entry = { work.finish with beyondGuard := false } :=
    if_pos (by simp [beyond, enters])
  rw [place, place, leaves, leaveFront_of_entered rfl]

/-- The last guard is the greatest. -/
theorem le_lastGuard {first guard : Slice} {rest : List Slice}
    (ascending : (first :: rest).Pairwise (· < ·)) (member : guard ∈ first :: rest) :
    guard ≤ rest.getLast?.getD first := by
  have last : (first :: rest).getLast? = some (rest.getLast?.getD first) := by
    cases rest <;> rfl
  obtain ⟨front, whole⟩ := List.getLast?_eq_some_iff.mp last
  rw [whole] at ascending member
  rcases List.mem_append.mp member with isFront | isLast
  · exact ((List.pairwise_append.mp ascending).2.2 guard isFront _
      (List.mem_singleton_self _)).le
  · exact (List.mem_singleton.mp isLast).le

section Front

variable {first : Slice} {rest : List Slice} {front behind : List Entry}
  (ascending : (first :: rest).Pairwise (· < ·))
  (sorted : (front ++ behind).Pairwise (fun front behind => front.userKey < behind.userKey))
  (below : ∀ entry ∈ front, entry.userKey < first)
  (above : ∀ entry ∈ behind, first ≤ entry.userKey)
  (beyond : work.beyondGuard = true) (atFirst : work.guardIndex = 0)
  (keeps : work.Keeps (first :: rest) 0) (closed : work.builder.getD [] = [])

include below beyond in
/-- The keys in front of the first guard. -/
theorem foldl_front :
    (front.foldl (place config (first :: rest) maxOutputFileSize) work).beyondGuard = true ∧
      (front.foldl (place config (first :: rest) maxOutputFileSize) work).guardIndex =
        work.guardIndex ∧
      (front.foldl (place config (first :: rest) maxOutputFileSize) work).builder.getD [] =
        openOutput config maxOutputFileSize (work.builder.getD []) front ∧
      front.foldl (place config (first :: rest) maxOutputFileSize) work =
        front.foldl (fun work entry => work.add config maxOutputFileSize entry) work := by
  obtain ⟨same, still, index, builder⟩ := @foldl_of_beyond config (first :: rest)
    maxOutputFileSize work front beyond (by
      intro entry member
      rw [Bool.eq_false_iff]
      intro enters
      exact absurd (enters_iff.mp enters).1 (not_le.mpr (below entry member)))
  exact ⟨still, index, builder, same⟩

include ascending sorted below beyond keeps closed in
theorem keeps_front :
    (front.foldl (place config (first :: rest) maxOutputFileSize) work).Keeps
      (first :: rest) 0 := by
  rw [(foldl_front below beyond).2.2.2]
  refine keeps.foldl_add ascending (List.pairwise_append.mp sorted).1 ?_ ?_ ?_
  · intro other member
    rw [closed] at member
    cases member
  · intro entry member guard isFirst
    obtain rfl := Option.some.inj isFirst
    exact below entry member
  · intro entry _ guard member
    cases member

include ascending sorted above atFirst in
/-- A key between the guards leads out of the front. -/
theorem within_of_enters (next : Entry) (later : List Entry) (isNext : behind = next :: later)
    (enters : enters (first :: rest) next = true)
    (stillBeyond : work.beyondGuard = true) (stillKeeps : work.Keeps (first :: rest) 0) :
    ∀ output ∈ (behind.foldl (place config (first :: rest) maxOutputFileSize)
      work).finish.outputs, Lib.Within Entry.userKey (first :: rest) output := by
  have sortedBehind := (List.pairwise_append.mp sorted).2.1
  have empty : work.finish.builder = none := finish_builder work
  have inside : Inside (first :: rest) { work.finish with beyondGuard := false } := by
    refine ⟨rfl, ?_⟩
    have index : work.finish.guardIndex + 1 = 1 := by rw [finish_guardIndex, atFirst]
    have moved := stillKeeps.finish.move (by rw [empty]; rfl) 1
    rw [Keeps] at moved ⊢
    simp only [index]
    exact moved
  have run := @Inside.foldl config (first :: rest) maxOutputFileSize
    { work.finish with beyondGuard := false } behind inside ascending sortedBehind (by
      intro other member
      simp only [empty] at member
      cases member) (by
      intro guard member entry isEntry
      simp only [finish_guardIndex, atFirst, Nat.zero_add, List.take_succ_cons, List.take_zero,
        List.mem_singleton] at member
      rw [member]
      exact above entry isEntry)
  have same : behind.foldl (place config (first :: rest) maxOutputFileSize) work =
      behind.foldl (place config (first :: rest) maxOutputFileSize)
        { work.finish with beyondGuard := false } := by
    rw [isNext, List.foldl_cons, List.foldl_cons, place_of_enters stillBeyond enters]
  rw [same]
  exact run.keeps.allWithin

include ascending sorted below above beyond atFirst keeps closed in
/-- From the front the guards are kept unless they are jumped over. -/
theorem front_within_iff :
    (∀ output ∈ ((front ++ behind).foldl (place config (first :: rest) maxOutputFileSize)
      work).finish.outputs, Lib.Within Entry.userKey (first :: rest) output) ↔
      ¬ JumpsGuards config (first :: rest) maxOutputFileSize (front ++ behind) := by
  obtain ⟨stillBeyond, stillFirst, isOpen, -⟩ :=
    @foldl_front config maxOutputFileSize work first rest front below beyond
  have keepsFront := @keeps_front config maxOutputFileSize work first rest front behind
    ascending sorted below beyond keeps closed
  rw [closed] at isOpen
  have fronts : (front ++ behind).filter (fun entry => entry.userKey < first) = front := by
    rw [List.filter_append, List.filter_eq_self.mpr (by simpa using below),
      List.filter_eq_nil_iff.mpr (by simpa using above), List.append_nil]
  rw [List.foldl_append]
  cases isNext : behind with
  | nil =>
      refine iff_of_true keepsFront.allWithin ?_
      rintro ⟨-, -, -, entry, member, reached⟩
      rw [List.append_nil] at member
      exact absurd (below entry member) (not_lt.mpr reached)
  | cons next later =>
      rw [← isNext]
      have isBehind : next ∈ behind := isNext ▸ List.mem_cons_self
      cases leads : enters (first :: rest) next with
      | true =>
          refine iff_of_true ?_ ?_
          · exact within_of_enters ascending sorted above (stillFirst.trans atFirst) next later
              isNext leads stillBeyond keepsFront
          · rintro ⟨several, -, none, -⟩
            rcases (enters_iff.mp leads).2 with single | before
            · exact several single
            · exact absurd before (not_lt.mpr (none next
                (List.mem_append_right _ isBehind) (above next isBehind)))
      | false =>
          -- the first key behind the front, and so every later one, is past all guards
          have reached := above next isBehind
          have sortedBehind := (List.pairwise_append.mp sorted).2.1
          rw [isNext] at sortedBehind
          have notEnters : ¬ (rest = [] ∨ next.userKey < rest.getLast?.getD first) := by
            intro either
            rw [enters_iff.mpr ⟨reached, either⟩] at leads
            cases leads
          rw [not_or, not_lt] at notEnters
          obtain ⟨several, past⟩ := notEnters
          have allPast : ∀ entry ∈ behind, rest.getLast?.getD first ≤ entry.userKey := by
            intro entry member
            rw [isNext] at member
            rcases List.mem_cons.mp member with rfl | isLater
            · exact past
            · exact past.trans ((List.pairwise_cons.mp sortedBehind).1 entry isLater).le
          obtain ⟨same, -, -, -⟩ := @foldl_of_beyond config (first :: rest) maxOutputFileSize
            (front.foldl (place config (first :: rest) maxOutputFileSize) work) behind
            stillBeyond (by
              intro entry member
              rw [Bool.eq_false_iff]
              intro enters
              rcases (enters_iff.mp enters).2 with single | before
              · exact several single
              · exact absurd before (not_lt.mpr (allPast entry member)))
          rw [same]
          by_cases empty : openOutput config maxOutputFileSize [] front = []
          · refine iff_of_true ?_ ?_
            · rw [empty] at isOpen
              refine ((keepsFront.move isOpen (first :: rest).length).foldl_add ascending
                (List.pairwise_append.mp sorted).2.1 ?_ ?_ ?_).allWithin
              · intro other member
                rw [isOpen] at member
                cases member
              · intro entry _ guard member
                rw [List.getElem?_eq_none (le_refl _)] at member
                cases member
              · intro entry member guard isGuard
                rw [List.take_length] at isGuard
                exact (le_lastGuard ascending isGuard).trans (allPast entry member)
            · rintro ⟨-, filled, -⟩
              rw [fronts] at filled
              exact filled empty
          · refine iff_of_false ?_ ?_
            · intro within
              obtain ⟨left, isLeft⟩ := List.exists_mem_of_ne_nil _ empty
              have isFront : left ∈ front :=
                (mem_openOutput isLeft).resolve_left List.not_mem_nil
              rw [isNext, List.foldl_cons] at within
              obtain ⟨output, member, hasLeft, hasNext⟩ :=
                (Together.foldl (together_add (isOpen ▸ isLeft))).finish
              have less := within output member first List.mem_cons_self left hasLeft next hasNext
                (below left isFront)
              exact absurd reached (not_le.mpr less)
            · intro kept
              refine kept ⟨several, ?_, ?_, next, List.mem_append_right _ isBehind, reached⟩
              · rw [fronts]
                exact empty
              · intro entry member isPast
                rcases List.mem_append.mp member with isFront | isLater
                · exact absurd (below entry isFront) (not_lt.mpr isPast)
                · exact allPast entry isLater

end Front

end TreeWork

/-! ## The files of a tree compaction -/

/-- The files are ascending and disjoint, no guard parts the entries of one, and
together they hold the newest entry of each user key that is no deletion. -/
structure GuardedFiles (guards : List Slice) (input : List Entry)
    (outputs : List (List Entry)) : Prop where
  ascending : outputs.flatten.Pairwise (fun front behind => front.userKey < behind.userKey)
  apart : outputs.Pairwise (fun front behind =>
    ∀ low ∈ front, ∀ high ∈ behind, low.userKey < high.userKey)
  within : ∀ output ∈ outputs, Lib.Within Entry.userKey guards output
  live : ∀ entry, entry ∈ outputs.flatten ↔ entry ∈ input ∧ entry.IsValue ∧
    ∀ other ∈ input, other.userKey = entry.userKey → other.sequence ≤ entry.sequence

section

variable {guards : List Slice} {input : List Entry}

theorem guardsUpTo_eq_zero_iff {first : Slice} {rest : List Slice} {key : Slice} :
    guardsUpTo (first :: rest) key = 0 ↔ key < first := by
  rw [guardsUpTo, List.length_eq_zero_iff, List.takeWhile_eq_nil_iff]
  simp

theorem le_of_mem_take_guardsUpTo {key guard : Slice}
    (member : guard ∈ guards.take (guardsUpTo guards key)) : guard ≤ key := by
  have isPrefix : guards.take (guardsUpTo guards key) =
      guards.takeWhile (fun guard => (Slice.compare guard key).isLE) :=
    (List.prefix_iff_eq_take.mp (List.takeWhile_prefix _)).symm
  rw [isPrefix] at member
  simpa using List.mem_takeWhile_imp member

/-- What the loop makes of the live entries, from its start on. -/
theorem doCompactionTreeWorkImpl_eq (config : LsmtConfig) (maxOutputFileSize : Nat)
    (upTo : Nat) (isStart : upTo = (input.head?.map (fun entry =>
      guardsUpTo guards entry.userKey)).getD 1) :
    doCompactionTreeWorkImpl config guards maxOutputFileSize input =
      ((liveEntries input).foldl (TreeWork.place config guards maxOutputFileSize)
        ⟨[], none, none, 0, upTo - 1, !guards.isEmpty && upTo == 0⟩).finish.outputs := by
  have forgets := @TreeWork.foldl_forget config guards maxOutputFileSize
    ⟨[], none, none, kMaxSequenceNumber, upTo - 1, !guards.isEmpty && upTo == 0⟩ input
  subst isStart
  have outputs := congrArg TreeWork.outputs ((TreeWork.finish_forget _).trans
    (congrArg TreeWork.finish forgets))
  exact outputs

/-- The loop keeps to its guards unless it jumps over them. -/
theorem doCompactionTreeWorkImpl_within_iff (config : LsmtConfig) (maxOutputFileSize : Nat)
    (ascending : guards.Pairwise (· < ·)) (sorted : Sorted input)
    (bounded : ∀ entry ∈ input, entry.sequence < kMaxSequenceNumber) :
    (∀ output ∈ doCompactionTreeWorkImpl config guards maxOutputFileSize input,
        Lib.Within Entry.userKey guards output) ↔
      ¬ TreeWork.JumpsGuards config guards maxOutputFileSize (liveEntries input) := by
  have strict := liveEntries_strict sorted bounded
  rw [doCompactionTreeWorkImpl_eq config maxOutputFileSize _ rfl]
  cases guards with
  | nil => exact iff_of_true (fun output _ guard member => nomatch member) not_false
  | cons first rest =>
      cases input with
      | nil =>
          refine iff_of_true ?_ (fun jumps => jumps.2.1 rfl)
          intro output member
          change output ∈ [] at member
          cases member
      | cons entry input =>
          rw [List.head?_cons, Option.map_some, Option.getD_some]
          have parts := TreeWork.filter_append_filter first strict
          by_cases inFront : entry.userKey < first
          · have upTo : guardsUpTo (first :: rest) entry.userKey = 0 :=
              guardsUpTo_eq_zero_iff.mpr inFront
            rw [upTo, parts]
            exact TreeWork.front_within_iff ascending (parts ▸ strict)
              (fun other member => by simpa using (List.mem_filter.mp member).2)
              (fun other member => by simpa using (List.mem_filter.mp member).2)
              rfl rfl Lib.Guarded.start rfl
          · have passed : guardsUpTo (first :: rest) entry.userKey ≠ 0 :=
              mt guardsUpTo_eq_zero_iff.mp inFront
            have behind : ∀ other ∈ liveEntries (entry :: input),
                entry.userKey ≤ other.userKey := fun other member =>
              sorted.head_le ((sorted.mem_liveEntries bounded other).mp member).1
            refine iff_of_true ?_ ?_
            · have inside : TreeWork.Inside (first :: rest) ⟨[], none, none, 0,
                  guardsUpTo (first :: rest) entry.userKey - 1,
                  !(first :: rest).isEmpty &&
                    guardsUpTo (first :: rest) entry.userKey == 0⟩ :=
                ⟨by simpa using passed, Lib.Guarded.start⟩
              refine (inside.foldl ascending strict (fun other member => nomatch member) ?_
                ).keeps.allWithin
              intro guard member other isOther
              simp only [Nat.sub_add_cancel (Nat.one_le_iff_ne_zero.mpr passed)] at member
              exact (le_of_mem_take_guardsUpTo member).trans (behind other isOther)
            · rintro ⟨-, filled, -⟩
              refine filled ?_
              rw [List.filter_eq_nil_iff.mpr]
              · rfl
              · intro other member
                have above := (not_lt.mp inFront).trans (behind other member)
                simpa using above

end

/-- The files of `CompactTree` keep to their guards if and only if the live keys do
not jump from the front over all guards. -/
theorem doCompactionTreeWorkImpl_guarded_iff (config : LsmtConfig) (guards : List Slice)
    (maxOutputFileSize : Nat) (input : List Entry) (ascending : guards.Pairwise (· < ·))
    (sorted : Sorted input)
    (bounded : ∀ entry ∈ input, entry.sequence < kMaxSequenceNumber) :
    GuardedFiles guards input
        (doCompactionTreeWorkImpl config guards maxOutputFileSize input) ↔
      ¬ TreeWork.JumpsGuards config guards maxOutputFileSize (liveEntries input) := by
  rw [← doCompactionTreeWorkImpl_within_iff config maxOutputFileSize ascending sorted bounded]
  constructor
  · exact GuardedFiles.within
  · intro within
    have whole := doCompactionTreeWorkImpl_flatten config guards maxOutputFileSize input
    have strict := liveEntries_strict sorted bounded
    refine ⟨whole ▸ strict, (List.pairwise_flatten.mp (whole ▸ strict)).2, within, ?_⟩
    intro entry
    rw [whole]
    exact sorted.mem_liveEntries bounded entry

/-- Outputs have the size of their number of entries here. -/
def countingConfig : LsmtConfig where
  levelLimit := -1
  maxFileSize := 10
  outputFileSize := 10
  buildingSize := List.length
  tableSize := List.length
  elsewhere := fun _ => 0

/-- Keys in front of, between and behind two guards. -/
theorem doCompactionTreeWorkImpl_guarded_three :
    GuardedFiles [[2], [4]] [⟨⟨[1], 1, .kTypeValue⟩, [7]⟩, ⟨⟨[3], 2, .kTypeValue⟩, [8]⟩,
        ⟨⟨[5], 3, .kTypeValue⟩, [9]⟩]
      (doCompactionTreeWorkImpl countingConfig [[2], [4]] 10
        [⟨⟨[1], 1, .kTypeValue⟩, [7]⟩, ⟨⟨[3], 2, .kTypeValue⟩, [8]⟩,
          ⟨⟨[5], 3, .kTypeValue⟩, [9]⟩]) :=
  (doCompactionTreeWorkImpl_guarded_iff countingConfig [[2], [4]] 10 _ (by decide)
    ⟨by decide, by decide⟩ (by decide)).mpr (by
      rintro ⟨-, -, past, -⟩
      exact absurd (past ⟨⟨[3], 2, .kTypeValue⟩, [8]⟩ (by decide) (by decide)) (by decide))

/-- A key in front of both guards and one behind them come into one file. -/
theorem not_guarded_of_jump :
    [[2], [4]].Pairwise (fun (front behind : Slice) => front < behind) ∧
      Sorted [⟨⟨[1], 1, .kTypeValue⟩, [7]⟩, ⟨⟨[5], 3, .kTypeValue⟩, [9]⟩] ∧
      doCompactionTreeWorkImpl countingConfig [[2], [4]] 10
          [⟨⟨[1], 1, .kTypeValue⟩, [7]⟩, ⟨⟨[5], 3, .kTypeValue⟩, [9]⟩] =
        [[⟨⟨[1], 1, .kTypeValue⟩, [7]⟩, ⟨⟨[5], 3, .kTypeValue⟩, [9]⟩]] ∧
      ¬ GuardedFiles [[2], [4]]
        [⟨⟨[1], 1, .kTypeValue⟩, [7]⟩, ⟨⟨[5], 3, .kTypeValue⟩, [9]⟩]
        (doCompactionTreeWorkImpl countingConfig [[2], [4]] 10
          [⟨⟨[1], 1, .kTypeValue⟩, [7]⟩, ⟨⟨[5], 3, .kTypeValue⟩, [9]⟩]) := by
  have outputs : doCompactionTreeWorkImpl countingConfig [[2], [4]] 10
      [⟨⟨[1], 1, .kTypeValue⟩, [7]⟩, ⟨⟨[5], 3, .kTypeValue⟩, [9]⟩] =
        [[⟨⟨[1], 1, .kTypeValue⟩, [7]⟩, ⟨⟨[5], 3, .kTypeValue⟩, [9]⟩]] := by decide
  refine ⟨by decide, ⟨by decide, by decide⟩, outputs, ?_⟩
  rw [outputs]
  intro guarded
  have less := guarded.within _ (List.mem_singleton_self _) [2] (by decide)
    ⟨⟨[1], 1, .kTypeValue⟩, [7]⟩ (by decide) ⟨⟨[5], 3, .kTypeValue⟩, [9]⟩ (by decide)
    (by decide)
  exact absurd less (by decide)

end AhaTree
