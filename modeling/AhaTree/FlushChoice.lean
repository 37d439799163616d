import AhaTree.CompactionInputs
import Mathlib.Data.List.Rotate
import Mathlib.Data.List.Nodup
import Mathlib.Data.List.Forall2

/-!
# The choice of the files to flush

`GetSomeBottomLevelFiles` takes the files behind the flush pointer and goes on
at the front of the level when it reaches the end.  The loop restarts at the
second file, not at the first.
-/

namespace AhaTree

/-! ## The code -/

/-- The test of the flush pointer; an empty pointer lets every file through. -/
def abovePointer (pointer : Option InternalKey) (file : FileMetaData) : Bool :=
  match pointer with
  | none => true
  | some key => (file.largest.compare key).isGT

/-- The loop of `GetSomeBottomLevelFiles` with the pointer of the level.  `none`
says that the fuel has run out. -/
def someFilesLoop (files : List FileMetaData) (flushNum : Nat) :
    Nat → Nat → Option InternalKey → List FileMetaData → Option (List FileMetaData)
  | 0, _, _, _ => none
  | fuel + 1, index, pointer, fs =>
      match files[index]? with
      | none => some fs
      | some file =>
          let fs := if abovePointer pointer file then fs ++ [file] else fs
          if flushNum ≤ fs.length then some fs
          -- `i = 0` is followed by the increment of the loop
          else if index = files.length - 1 then someFilesLoop files flushNum fuel 1 none fs
          else someFilesLoop files flushNum fuel (index + 1) pointer fs

namespace Lsmt

def setFlushPointer (lsmt : Lsmt) (level : Nat) (pointer : Option InternalKey) : Lsmt :=
  { lsmt with flushPointer := Function.update lsmt.flushPointer level pointer }

/-- `GetSomeBottomLevelFiles`, with the level it returns and an empty vector to
fill.  `none` is a loop that is out of fuel, or `back()` of an empty vector. -/
def getSomeBottomLevelFiles (fuel : Nat) (lsmt : Lsmt) (flushNum : Nat) :
    Option (Option Nat × List FileMetaData × Lsmt) :=
  match getBottomLevel lsmt.files with
  | none => some (none, [], lsmt)
  | some level =>
      if level = 0 ∨ (lsmt.files level).length ≤ flushNum then
        some (some level, lsmt.files level, lsmt.setFlushPointer level none)
      else
        match someFilesLoop (lsmt.files level) flushNum fuel 0 (lsmt.flushPointer level) []
          with
        | none => none
        | some fs =>
            match fs.getLast? with
            | none => none
            | some last =>
                some (some level, fs, lsmt.setFlushPointer level (some last.largest))

/-! ## What the choice is for -/

/-- The call ends, and this is what it returns. -/
def ReturnsFiles (lsmt : Lsmt) (flushNum : Nat)
    (result : Option Nat × List FileMetaData × Lsmt) : Prop :=
  ∃ enough, ∀ fuel, enough ≤ fuel → lsmt.getSomeBottomLevelFiles fuel flushNum = some result

/-- The files of a level in cyclic order, from the first one above the pointer. -/
def cyclicSuccessors (lsmt : Lsmt) (level flushNum : Nat) : List FileMetaData :=
  ((lsmt.files level).rotate
    ((lsmt.files level).findIdx (abovePointer (lsmt.flushPointer level)))).take flushNum

/-- So many calls in a row each return distinct files, the cyclic successors of
the pointer, and leave the pointer at the last of them; `all` are the files
chosen by all the calls. -/
def RoundRobin (level flushNum : Nat) : Nat → Lsmt → List FileMetaData → Prop
  | 0, _, all => all = []
  | calls + 1, lsmt, all => ∃ chosen after later,
      lsmt.ReturnsFiles flushNum (some level, chosen, after) ∧
      chosen.length = flushNum ∧ chosen.Nodup ∧
      chosen = lsmt.cyclicSuccessors level flushNum ∧
      after = lsmt.setFlushPointer level (chosen.getLast?.map FileMetaData.largest) ∧
      RoundRobin level flushNum calls after later ∧ all = chosen ++ later

end Lsmt

/-- Between two choices of one file every other file of the level is chosen. -/
def NonePassedOver (files all : List FileMetaData) : Prop :=
  ∀ first second file, first < second → all[first]? = some file →
    all[second]? = some file → ∀ other ∈ files,
      other ∈ (all.drop first).take (second - first)

/-! ## The loop -/

section

variable {files fs : List FileMetaData} {flushNum index : Nat}
  {pointer : Option InternalKey}

/-- The file at an index and what stands behind it. -/
theorem getElem?_of_drop {file : FileMetaData} {rest : List FileMetaData}
    (isRest : files.drop index = file :: rest) :
    files[index]? = some file ∧ files.drop (index + 1) = rest ∧
      files.length - index = rest.length + 1 := by
  refine ⟨?_, ?_, ?_⟩
  · rw [← List.head?_drop, isRest]
    rfl
  · rw [← List.tail_drop, isRest]
    rfl
  · simpa using congrArg List.length isRest

/-- A pass that finds enough files stops there. -/
theorem someFilesLoop_stop {rest : List FileMetaData} (isRest : files.drop index = rest)
    (few : fs.length < flushNum)
    (enough : flushNum ≤ fs.length + (rest.filter (abovePointer pointer)).length)
    {fuel : Nat} (long : rest.length ≤ fuel) :
    someFilesLoop files flushNum fuel index pointer fs =
      some (fs ++ (rest.filter (abovePointer pointer)).take (flushNum - fs.length)) := by
  induction rest generalizing index fs fuel with
  | nil =>
      simp only [List.filter_nil, List.length_nil] at enough
      omega
  | cons file rest ih =>
      obtain ⟨fuel, rfl⟩ : ∃ less, fuel = less + 1 :=
        ⟨fuel - 1, by simp only [List.length_cons] at long; omega⟩
      obtain ⟨found, isTail, bound⟩ := getElem?_of_drop isRest
      have shorter : rest.length ≤ fuel := by simpa using long
      rw [someFilesLoop, found]
      cases above : abovePointer pointer file with
      | true =>
          simp only [List.filter_cons, above, if_true, List.length_cons] at enough ⊢
          by_cases full : flushNum ≤ (fs ++ [file]).length
          · have one : flushNum - fs.length = 1 := by
              simp only [List.length_append, List.length_singleton] at full
              omega
            rw [if_pos full, one]
            rfl
          · have more : (fs ++ [file]).length < flushNum := by omega
            have goesOn : ¬ index = files.length - 1 := by
              intro last
              have none : rest.length = 0 := by omega
              rw [List.length_eq_zero_iff.mp none] at enough
              simp only [List.length_append, List.length_singleton] at more
              simp only [List.filter_nil, List.length_nil] at enough
              omega
            have left : flushNum - fs.length = flushNum - (fs ++ [file]).length + 1 := by
              simp only [List.length_append, List.length_singleton] at more ⊢
              omega
            rw [if_neg full, if_neg goesOn, ih isTail more (by
              simp only [List.length_append, List.length_singleton]
              omega) shorter, left, List.take_succ_cons, List.append_assoc]
            rfl
      | false =>
          simp only [List.filter_cons, above, Bool.false_eq_true, if_false] at enough ⊢
          have goesOn : ¬ index = files.length - 1 := by
            intro last
            have none : rest.length = 0 := by omega
            rw [List.length_eq_zero_iff.mp none] at enough
            simp only [List.filter_nil, List.length_nil] at enough
            omega
          rw [if_neg (by omega), if_neg goesOn]
          exact ih isTail few enough shorter

/-- A pass that finds too few files starts again at the second file. -/
theorem someFilesLoop_wrap {rest : List FileMetaData} (isRest : files.drop index = rest)
    (some_left : rest ≠ [])
    (few : fs.length + (rest.filter (abovePointer pointer)).length < flushNum)
    (fuel : Nat) :
    someFilesLoop files flushNum (rest.length + fuel) index pointer fs =
      someFilesLoop files flushNum fuel 1 none
        (fs ++ rest.filter (abovePointer pointer)) := by
  induction rest generalizing index fs with
  | nil => exact absurd rfl some_left
  | cons file rest ih =>
      obtain ⟨found, isTail, bound⟩ := getElem?_of_drop isRest
      have next : (file :: rest).filter (abovePointer pointer) =
          (if abovePointer pointer file then [file] else []) ++
            rest.filter (abovePointer pointer) := by
        rw [List.filter_cons]
        split <;> rfl
      have taken : (if abovePointer pointer file then fs ++ [file] else fs) =
          fs ++ if abovePointer pointer file then [file] else [] := by
        split
        · rfl
        · rw [List.append_nil]
      rw [next, List.length_append] at few
      have fuelStep : (file :: rest).length + fuel = rest.length + fuel + 1 := by
        rw [List.length_cons]
        omega
      rw [next, ← List.append_assoc, fuelStep, someFilesLoop, found]
      simp only [taken]
      rw [if_neg (by rw [List.length_append]; omega)]
      cases rest with
      | nil =>
          have last : index = files.length - 1 := by
            simp only [List.length_nil] at bound
            omega
          rw [if_pos last]
          simp
      | cons second rest =>
          have goesOn : ¬ index = files.length - 1 := by
            simp only [List.length_cons] at bound
            omega
          rw [if_neg goesOn]
          exact ih isTail (List.cons_ne_nil _ _) (by rw [List.length_append]; omega)

/-! ## One pass over a sorted level -/

/-- In a sorted level the files above a pointer are the last ones. -/
theorem abovePointer_of_apart {front behind : FileMetaData} (apart : Apart front behind)
    (above : abovePointer pointer front = true) : abovePointer pointer behind = true := by
  cases pointer with
  | none => rfl
  | some key =>
      have order : key.userKey ≤ front.limit := InternalKey.userKey_le_of_isGT above
      have beyond : key.userKey < behind.limit :=
        order.trans_lt (apart.trans_le behind.start_le_limit)
      cases larger : (behind.largest.compare key).isGT with
      | true => exact larger
      | false => exact absurd (InternalKey.userKey_le_of_not_isGT larger) beyond.not_ge

theorem filter_abovePointer (sorted : files.Pairwise Apart) :
    files.filter (abovePointer pointer) =
      files.drop (files.findIdx (abovePointer pointer)) := by
  induction files with
  | nil => rfl
  | cons file files ih =>
      obtain ⟨front, sorted⟩ := List.pairwise_cons.mp sorted
      rw [List.findIdx_cons]
      cases above : abovePointer pointer file with
      | true =>
          rw [List.filter_cons_of_pos above, List.filter_eq_self.mpr fun other member =>
            abovePointer_of_apart (front other member) above]
          rfl
      | false =>
          rw [List.filter_cons_of_neg (by simp [above]), ih sorted]
          rfl

theorem nodup_of_apart (sorted : files.Pairwise Apart) : files.Nodup :=
  sorted.imp fun apart same => by
    subst same
    exact apart.asymm apart

/-- Behind the largest key of a file stand the files behind it. -/
theorem filter_abovePointer_largest {front behind : List FileMetaData}
    {file : FileMetaData} (sorted : (front ++ file :: behind).Pairwise Apart) :
    (front ++ file :: behind).filter (abovePointer (some file.largest)) = behind := by
  obtain ⟨-, sorted, before⟩ := List.pairwise_append.mp sorted
  obtain ⟨after, -⟩ := List.pairwise_cons.mp sorted
  have itself : abovePointer (some file.largest) file = false := by
    simp [abovePointer, InternalKey.compare, Slice.compare_eq_eq.mpr rfl]
  have fronts : front.filter (abovePointer (some file.largest)) = [] := by
    refine List.filter_eq_nil_iff.mpr ?_
    intro other member above
    have apart := before other member file List.mem_cons_self
    rw [abovePointer_of_apart apart above] at itself
    cases itself
  have behinds : behind.filter (abovePointer (some file.largest)) = behind := by
    refine List.filter_eq_self.mpr ?_
    intro other member
    have beyond : file.limit < other.limit :=
      (after other member).trans_le other.start_le_limit
    cases larger : (other.largest.compare file.largest).isGT with
    | true => exact larger
    | false => exact absurd (InternalKey.userKey_le_of_not_isGT larger) beyond.not_ge
  rw [List.filter_append, fronts, List.filter_cons_of_neg (by simp [itself]), behinds]
  rfl

variable (files pointer flushNum) in
/-- What the loop picks: the files above the pointer and, if they are too few,
files from the second one on. -/
def pickedFiles : List FileMetaData :=
  (files.filter (abovePointer pointer)).take flushNum ++
    (files.drop 1).take (flushNum - (files.filter (abovePointer pointer)).length)

theorem someFilesLoop_eq (positive : 0 < flushNum) (more : flushNum < files.length)
    {fuel : Nat} (long : 2 * files.length ≤ fuel) :
    someFilesLoop files flushNum fuel 0 pointer [] =
      some (pickedFiles files flushNum pointer) := by
  rcases Nat.lt_or_ge (files.filter (abovePointer pointer)).length flushNum with few | enough
  · obtain ⟨rest, rfl⟩ : ∃ rest, fuel = files.length + rest :=
      ⟨fuel - files.length, by omega⟩
    have filled : files ≠ [] := by
      rintro rfl
      exact absurd more (Nat.not_lt_zero _)
    have all : (files.drop 1).filter (abovePointer none) = files.drop 1 :=
      List.filter_eq_self.mpr fun _ _ => rfl
    rw [someFilesLoop_wrap List.drop_zero filled (by simpa using few), List.nil_append,
      someFilesLoop_stop rfl few (by rw [all, List.length_drop]; omega)
        (by rw [List.length_drop]; omega), all, pickedFiles, List.take_of_length_le few.le]
  · rw [someFilesLoop_stop List.drop_zero positive (by simpa using enough) (by omega),
      pickedFiles, Nat.sub_eq_zero_of_le enough]
    simp

/-- The files above the pointer, and then those from the first one on, are the
cyclic order; a pass that is not enough misses the first file. -/
theorem pickedFiles_eq_iff (sorted : files.Pairwise Apart)
    (more : flushNum < files.length) :
    pickedFiles files flushNum pointer =
        (files.rotate (files.findIdx (abovePointer pointer))).take flushNum ↔
      flushNum ≤ (files.filter (abovePointer pointer)).length := by
  have rotated : files.rotate (files.findIdx (abovePointer pointer)) =
      files.filter (abovePointer pointer) ++
        files.take (files.findIdx (abovePointer pointer)) := by
    rw [filter_abovePointer sorted, List.rotate_eq_drop_append_take List.findIdx_le_length]
  have count : (files.filter (abovePointer pointer)).length =
      files.length - files.findIdx (abovePointer pointer) := by
    rw [filter_abovePointer sorted, List.length_drop]
  rw [pickedFiles, rotated, List.take_append, List.append_cancel_left_eq]
  constructor
  · intro same
    by_contra few
    obtain ⟨left, isLeft⟩ : ∃ left, flushNum -
        (files.filter (abovePointer pointer)).length = left + 1 :=
      ⟨flushNum - (files.filter (abovePointer pointer)).length - 1, by omega⟩
    have heads := congrArg List.head? same
    rw [isLeft, List.head?_take, List.head?_take, if_neg (Nat.succ_ne_zero _),
      if_neg (Nat.succ_ne_zero _), List.head?_take, if_neg (by omega), List.head?_drop,
      List.head?_eq_getElem?] at heads
    have inside : 1 < files.length := by omega
    exact absurd ((nodup_of_apart sorted).getElem_inj_iff.mp
      (Option.some.inj (by simpa [inside, Nat.zero_lt_of_lt inside] using heads)))
      Nat.one_ne_zero
  · intro enough
    rw [Nat.sub_eq_zero_of_le enough, List.take_zero, List.take_zero]

/-- Files that are all above the pointer lie in one piece, with the last of them
in front of the rest. -/
theorem take_filter_abovePointer (sorted : files.Pairwise Apart) (positive : 0 < flushNum)
    (enough : flushNum ≤ (files.filter (abovePointer pointer)).length) :
    ∃ front last, (files.filter (abovePointer pointer)).take flushNum = front ++ [last] ∧
      files.filter (abovePointer (some last.largest)) =
        (files.filter (abovePointer pointer)).drop flushNum := by
  obtain ⟨front, last, isLast⟩ : ∃ front last,
      (files.filter (abovePointer pointer)).take flushNum = front ++ [last] := by
    have filled : (files.filter (abovePointer pointer)).take flushNum ≠ [] := by
      rw [ne_eq, List.take_eq_nil_iff, not_or, ← List.length_eq_zero_iff]
      omega
    exact ⟨_, _, (List.dropLast_append_getLast filled).symm⟩
  refine ⟨front, last, isLast, ?_⟩
  have whole : files = (files.take (files.findIdx (abovePointer pointer)) ++ front) ++
      last :: (files.filter (abovePointer pointer)).drop flushNum := by
    calc files
        = files.take (files.findIdx (abovePointer pointer)) ++
            files.filter (abovePointer pointer) := by
          rw [filter_abovePointer sorted, List.take_append_drop]
      _ = files.take (files.findIdx (abovePointer pointer)) ++
            ((files.filter (abovePointer pointer)).take flushNum ++
              (files.filter (abovePointer pointer)).drop flushNum) := by
          rw [List.take_append_drop]
      _ = _ := by
          rw [isLast]
          simp
  have inOrder := sorted
  rw [whole] at inOrder
  exact (congrArg (List.filter (abovePointer (some last.largest))) whole).trans
    (filter_abovePointer_largest inOrder)

end

/-! ## Calls in a row -/

namespace Lsmt

variable {lsmt after : Lsmt} {level flushNum : Nat}

@[simp] theorem setFlushPointer_files (pointer : Option InternalKey) :
    (lsmt.setFlushPointer level pointer).files = lsmt.files := rfl

@[simp] theorem setFlushPointer_flushPointer (pointer : Option InternalKey) :
    (lsmt.setFlushPointer level pointer).flushPointer level = pointer :=
  Function.update_self _ _ _

theorem ReturnsFiles.unique {result other : Option Nat × List FileMetaData × Lsmt}
    (returns : lsmt.ReturnsFiles flushNum result)
    (returnsOther : lsmt.ReturnsFiles flushNum other) : result = other := by
  obtain ⟨enough, returns⟩ := returns
  obtain ⟨enoughOther, returnsOther⟩ := returnsOther
  exact Option.some.inj ((returns _ (le_max_left enough enoughOther)).symm.trans
    (returnsOther _ (le_max_right enough enoughOther)))

/-- The call ends, and with these files. -/
theorem returnsFiles_picked (bottom : getBottomLevel lsmt.files = some level)
    (deep : 0 < level) (positive : 0 < flushNum)
    (more : flushNum < (lsmt.files level).length) :
    let picked := pickedFiles (lsmt.files level) flushNum (lsmt.flushPointer level)
    lsmt.ReturnsFiles flushNum (some level, picked,
      lsmt.setFlushPointer level (picked.getLast?.map FileMetaData.largest)) := by
  intro picked
  refine ⟨2 * (lsmt.files level).length, ?_⟩
  intro fuel long
  have loop : someFilesLoop (lsmt.files level) flushNum fuel 0 (lsmt.flushPointer level) [] =
      some picked := someFilesLoop_eq positive more long
  have filled : picked.length = flushNum := by
    simp only [picked, pickedFiles, List.length_append, List.length_take, List.length_drop]
    omega
  obtain ⟨last, isLast⟩ : ∃ last, picked.getLast? = some last := by
    cases isLast : picked.getLast? with
    | some last => exact ⟨last, rfl⟩
    | none =>
        rw [List.getLast?_eq_none_iff.mp isLast] at filled
        exact absurd filled positive.ne
  rw [getSomeBottomLevelFiles, bottom]
  simp only
  rw [if_neg (by omega), loop]
  simp only [isLast]
  rfl

theorem cyclicSuccessors_length (more : flushNum < (lsmt.files level).length) :
    (lsmt.cyclicSuccessors level flushNum).length = flushNum := by
  rw [cyclicSuccessors, List.length_take, List.length_rotate]
  exact Nat.min_eq_left more.le

theorem cyclicSuccessors_nodup (sorted : (lsmt.files level).Pairwise Apart) :
    (lsmt.cyclicSuccessors level flushNum).Nodup :=
  (List.nodup_rotate.mpr (nodup_of_apart sorted)).sublist (List.take_sublist _ _)

/-- A call that finds enough files above the pointer moves the pointer behind
them. -/
theorem returnsFiles_of_enough (bottom : getBottomLevel lsmt.files = some level)
    (deep : 0 < level) (sorted : (lsmt.files level).Pairwise Apart)
    (positive : 0 < flushNum) (more : flushNum < (lsmt.files level).length)
    (enough : flushNum ≤
      ((lsmt.files level).filter (abovePointer (lsmt.flushPointer level))).length) :
    ∃ after,
      lsmt.ReturnsFiles flushNum (some level, lsmt.cyclicSuccessors level flushNum, after) ∧
      after = lsmt.setFlushPointer level
        ((lsmt.cyclicSuccessors level flushNum).getLast?.map FileMetaData.largest) ∧
      lsmt.cyclicSuccessors level flushNum = ((lsmt.files level).filter
        (abovePointer (lsmt.flushPointer level))).take flushNum ∧
      (after.files level).filter (abovePointer (after.flushPointer level)) =
        ((lsmt.files level).filter (abovePointer (lsmt.flushPointer level))).drop flushNum := by
  have returned := returnsFiles_picked bottom deep positive more
  have cyclic : pickedFiles (lsmt.files level) flushNum (lsmt.flushPointer level) =
      lsmt.cyclicSuccessors level flushNum := (pickedFiles_eq_iff sorted more).mpr enough
  have front : lsmt.cyclicSuccessors level flushNum = ((lsmt.files level).filter
      (abovePointer (lsmt.flushPointer level))).take flushNum := by
    rw [← cyclic, pickedFiles, Nat.sub_eq_zero_of_le enough]
    simp
  simp only [cyclic] at returned
  refine ⟨_, returned, rfl, front, ?_⟩
  obtain ⟨before, last, isLast, behind⟩ := take_filter_abovePointer sorted positive enough
  rw [setFlushPointer_files, setFlushPointer_flushPointer, front, isLast,
    List.getLast?_concat]
  exact behind

/-- A row of calls goes through the files above the first pointer. -/
theorem roundRobin_iff (bottom : getBottomLevel lsmt.files = some level) (deep : 0 < level)
    (sorted : (lsmt.files level).Pairwise Apart) (positive : 0 < flushNum)
    (more : flushNum < (lsmt.files level).length) (calls : Nat) (all : List FileMetaData) :
    RoundRobin level flushNum calls lsmt all ↔
      calls * flushNum ≤
        ((lsmt.files level).filter (abovePointer (lsmt.flushPointer level))).length ∧
      all = ((lsmt.files level).filter (abovePointer (lsmt.flushPointer level))).take
        (calls * flushNum) := by
  induction calls generalizing lsmt all with
  | zero => simp [RoundRobin]
  | succ calls ih =>
      rw [Nat.add_mul, Nat.one_mul, Nat.add_comm (calls * flushNum)]
      constructor
      · rintro ⟨chosen, after, later, returns, -, -, isChosen, isAfter, run, rfl⟩
        have same := returns.unique (returnsFiles_picked bottom deep positive more)
        have picked : chosen = pickedFiles (lsmt.files level) flushNum
            (lsmt.flushPointer level) := congrArg (fun result => result.2.1) same
        have enough := (pickedFiles_eq_iff sorted more).mp (picked.symm.trans isChosen)
        obtain ⟨next, -, isNext, front, behind⟩ :=
          returnsFiles_of_enough bottom deep sorted positive more enough
        have isSame : after = next := by rw [isAfter, isNext, isChosen]
        subst isSame
        have keeps : after.files = lsmt.files := by rw [isNext, setFlushPointer_files]
        rw [ih (by rw [keeps]; exact bottom) (by rw [keeps]; exact sorted)
          (by rw [keeps]; exact more), behind, List.length_drop] at run
        obtain ⟨fits, rfl⟩ := run
        refine ⟨by omega, ?_⟩
        rw [isChosen, front, List.take_add]
      · rintro ⟨enough, rfl⟩
        obtain ⟨after, returns, isAfter, front, behind⟩ :=
          returnsFiles_of_enough bottom deep sorted positive more (by omega)
        have keeps : after.files = lsmt.files := by rw [isAfter, setFlushPointer_files]
        refine ⟨_, after, (((lsmt.files level).filter
          (abovePointer (lsmt.flushPointer level))).drop flushNum).take (calls * flushNum),
          returns, cyclicSuccessors_length more, cyclicSuccessors_nodup sorted, rfl, isAfter,
          ?_, ?_⟩
        · rw [ih (by rw [keeps]; exact bottom) (by rw [keeps]; exact sorted)
            (by rw [keeps]; exact more), behind, List.length_drop]
          exact ⟨by omega, rfl⟩
        · rw [front, List.take_add]

/-- Files that are chosen once each leave nothing to pass over. -/
theorem nonePassedOver_of_nodup {files all : List FileMetaData} (once : all.Nodup) :
    NonePassedOver files all := by
  intro first second file before isFirst isSecond
  obtain ⟨inside, isFile⟩ := List.getElem?_eq_some_iff.mp isFirst
  have same : first = second :=
    (List.getElem?_inj inside once).mp (isFirst.trans isSecond.symm)
  exact absurd same before.ne

/-- The calls choose files in turn as long as the files above the first pointer
are enough for all of them. -/
theorem roundRobin_iff_enough_above (lsmt : Lsmt) (level flushNum calls : Nat)
    (bottom : getBottomLevel lsmt.files = some level) (deep : 0 < level)
    (sorted : (lsmt.files level).Pairwise Apart) (positive : 0 < flushNum)
    (more : flushNum < (lsmt.files level).length) :
    (∃ all, RoundRobin level flushNum calls lsmt all ∧
        NonePassedOver (lsmt.files level) all) ↔
      calls * flushNum ≤
        ((lsmt.files level).filter (abovePointer (lsmt.flushPointer level))).length := by
  constructor
  · rintro ⟨all, run, -⟩
    exact ((roundRobin_iff bottom deep sorted positive more calls all).mp run).1
  · intro enough
    refine ⟨_, (roundRobin_iff bottom deep sorted positive more calls _).mpr
      ⟨enough, rfl⟩, ?_⟩
    exact nonePassedOver_of_nodup (((nodup_of_apart sorted).sublist
      List.filter_sublist).sublist (List.take_sublist _ _))

/-- Three files at level 1. -/
def threeFiles : Lsmt :=
  { Lsmt.empty with
    files := fun level => if level = 1 then
      [.spanning 1 [97] [98] (by decide), .spanning 2 [99] [100] (by decide),
        .spanning 3 [101] [102] (by decide)] else [] }

theorem threeFiles_sorted : (threeFiles.files 1).Pairwise Apart := by
  have distinct : (threeFiles.files 1).Pairwise (fun front behind =>
      front.limit < behind.start) := by decide
  exact distinct

/-- From an empty pointer three calls go through the three files. -/
theorem roundRobin_threeFiles :
    3 * 1 ≤ ((threeFiles.files 1).filter (abovePointer (threeFiles.flushPointer 1))).length ∧
      ∃ all, RoundRobin 1 1 3 threeFiles all ∧ NonePassedOver (threeFiles.files 1) all :=
  ⟨by decide, (roundRobin_iff_enough_above threeFiles 1 1 3 rfl (by decide)
    threeFiles_sorted (by decide) (by decide)).mpr (by decide)⟩

/-- With the pointer at the last of three files the next call takes the second
file instead of the first. -/
theorem not_roundRobin_at_the_end :
    let lsmt := threeFiles.setFlushPointer 1
      ((threeFiles.files 1).getLast?.map FileMetaData.largest)
    getBottomLevel lsmt.files = some 1 ∧ (lsmt.files 1).Pairwise Apart ∧
      1 < (lsmt.files 1).length ∧
      (lsmt.cyclicSuccessors 1 1).map FileMetaData.number = [1] ∧
      (lsmt.getSomeBottomLevelFiles 6 1).map
        (fun result => result.2.1.map FileMetaData.number) = some [2] ∧
      ¬ ∃ all, RoundRobin 1 1 1 lsmt all ∧ NonePassedOver (lsmt.files 1) all := by
  refine ⟨rfl, threeFiles_sorted, by decide, by decide, by decide, ?_⟩
  rintro ⟨all, run, -⟩
  have enough := ((@roundRobin_iff (threeFiles.setFlushPointer 1
    ((threeFiles.files 1).getLast?.map FileMetaData.largest)) 1 1 rfl Nat.zero_lt_one
    threeFiles_sorted Nat.zero_lt_one (by decide) 1 all).mp run).1
  exact absurd enough (by decide)

end Lsmt

end AhaTree
