import AhaTree.Routing

/-!
# The check before a flush

`FileAcrossPivots` is asked whether a list of files may be flushed as it is.
The loop is first shown to be a walk over files and pivots, then the walk is
described by what it catches.  What the check lets through is compared with
what a flush and a scan need.
-/

namespace AhaTree

/-! ## The loop as a walk -/

/-- The loop of `FileAcrossPivots` past the first pivot, on the pivots and files
that are still ahead. -/
def acrossWalk : List Slice → List FileMetaData → Bool
  | [], _ => false
  | _ :: _, [] => false
  | pivot :: keys, file :: files =>
      if file.limit ≤ pivot then acrossWalk (pivot :: keys) files
      else if file.start < pivot then true
      else acrossWalk keys (file :: files)
  termination_by keys files => keys.length + files.length

theorem acrossLoop_eq_walk (keys : List Slice) (files : List FileMetaData)
    (fuel index offset : Nat)
    (enough : (files.length - index) + (keys.length - (offset + 1)) + 1 ≤ fuel) :
    acrossLoop keys files fuel index (offset + 1) =
      some ⟨acrossWalk (keys.drop (offset + 1)) (files.drop index), 0⟩ := by
  induction fuel generalizing index offset with
  | zero => omega
  | succ fuel ih =>
      rw [acrossLoop, Int.toNat_natCast]
      rcases Nat.lt_or_ge index files.length with inside | past
      · rw [List.getElem?_eq_getElem inside, List.drop_eq_getElem_cons inside]
        simp only
        by_cases ended : keys.length ≤ offset + 1
        · rw [if_pos ended, List.drop_of_length_le ended, acrossWalk]
        · have within : offset + 1 < keys.length := by omega
          rw [if_neg ended, if_neg (Nat.succ_ne_zero offset),
            pageReadPivotAtOffset_eq within, List.drop_eq_getElem_cons within,
            acrossWalk]
          simp only [Slice.compare_isLE, Ordering.isLT_iff_eq_lt,
            Slice.compare_eq_lt]
          split
          · have next := ih (index + 1) offset (by omega)
            rw [List.drop_eq_getElem_cons within] at next
            exact_mod_cast next
          · split
            · rfl
            · have next := ih index (offset + 1) (by omega)
              rw [List.drop_eq_getElem_cons inside] at next
              rw [Int.sub_add_cancel]
              exact next
      · rw [List.getElem?_eq_none past, List.drop_of_length_le past]
        cases keys.drop (offset + 1) <;> simp [acrossWalk]

/-- The first file starts below the first pivot. -/
def startsBelow : List Slice → List FileMetaData → Bool
  | smallest :: _, file :: _ => (Slice.compare file.start smallest).isLT
  | _, _ => false

/-- The loop ends, whatever the pivots and the files are. -/
theorem acrossLoop_eq {keys : List Slice} {files : List FileMetaData} {fuel : Nat}
    (enough : files.length + keys.length + 1 ≤ fuel) :
    acrossLoop keys files fuel 0 0 =
      some (if startsBelow keys files then ⟨true, 1⟩
        else ⟨acrossWalk keys.tail files, 0⟩) := by
  obtain ⟨fuel, rfl⟩ : ∃ less, fuel = less + 1 := ⟨fuel - 1, by omega⟩
  rw [acrossLoop]
  cases files with
  | nil => cases keys with
    | nil => simp [startsBelow, acrossWalk]
    | cons smallest keys => cases keys <;> simp [startsBelow, acrossWalk]
  | cons file files =>
      cases keys with
      | nil => simp [startsBelow, acrossWalk]
      | cons smallest keys =>
          have walked := acrossLoop_eq_walk (smallest :: keys) (file :: files) fuel 0 0
            (by simp only [List.length_cons] at enough ⊢; omega)
          by_cases below : file.start < smallest
          · simp [startsBelow, pageReadPivotAtOffset, below]
          · simpa [startsBelow, pageReadPivotAtOffset, below] using walked

/-! ## What the walk catches -/

/-- Some pivot lies strictly inside a file, and no file in front of it has taken
the walk past that pivot. -/
def Straddled (keys : List Slice) (files : List FileMetaData) : Prop :=
  ∃ before file behind pivot, files = before ++ file :: behind ∧ pivot ∈ keys ∧
    file.start < pivot ∧ pivot < file.limit ∧
    ∀ earlier ∈ before, ¬ (pivot ≤ earlier.start ∧ pivot < earlier.limit)

theorem acrossWalk_iff {keys : List Slice} (increasing : keys.Pairwise (· < ·))
    (files : List FileMetaData) :
    acrossWalk keys files = true ↔ Straddled keys files := by
  fun_induction acrossWalk keys files with
  | case1 files =>
      simp [Straddled]
  | case2 pivot keys =>
      simp [Straddled]
  | case3 pivot keys file files left ih =>
      -- the file ends before all pivots ahead: it neither holds nor passes one
      rw [ih increasing]
      have allAbove : ∀ key ∈ pivot :: keys, pivot ≤ key := by
        intro key member
        rcases List.mem_cons.mp member with rfl | later
        · exact le_rfl
        · exact ((List.pairwise_cons.mp increasing).1 key later).le
      constructor
      · rintro ⟨before, found, behind, key, rfl, member, starts, ends, none⟩
        refine ⟨file :: before, found, behind, key, rfl, member, starts, ends, ?_⟩
        intro earlier isEarlier
        rcases List.mem_cons.mp isEarlier with rfl | later
        · rintro ⟨-, passed⟩
          exact absurd (left.trans (allAbove key member)) (not_le.mpr passed)
        · exact none earlier later
      · rintro ⟨before, found, behind, key, split, member, starts, ends, none⟩
        cases before with
        | nil =>
            obtain ⟨rfl, rfl⟩ := List.cons.inj split
            exact absurd (left.trans (allAbove key member)) (not_le.mpr ends)
        | cons first before =>
            obtain ⟨rfl, rfl⟩ := List.cons.inj split
            exact ⟨before, found, behind, key, rfl, member, starts, ends,
              fun earlier isEarlier =>
                none earlier (List.mem_cons_of_mem _ isEarlier)⟩
  | case4 pivot keys file files notLeft starts =>
      simp only [true_iff]
      exact ⟨[], file, files, pivot, rfl, List.mem_cons_self, starts,
        not_le.mp notLeft, by simp⟩
  | case5 pivot keys file files notLeft notStarts ih =>
      -- the file lies behind the pivot and takes the walk past it
      rw [ih (List.pairwise_cons.mp increasing).2]
      constructor
      · rintro ⟨before, found, behind, key, split, member, rest⟩
        exact ⟨before, found, behind, key, split,
          List.mem_cons_of_mem _ member, rest⟩
      · rintro ⟨before, found, behind, key, split, member, starts, ends, none⟩
        refine ⟨before, found, behind, key, split, ?_, starts, ends, none⟩
        rcases List.mem_cons.mp member with rfl | later
        · cases before with
          | nil =>
              obtain ⟨rfl, rfl⟩ := List.cons.inj split
              exact absurd starts notStarts
          | cons first before =>
              obtain ⟨rfl, rfl⟩ := List.cons.inj split
              exact absurd ⟨not_lt.mp notStarts, not_le.mp notLeft⟩
                (none file List.mem_cons_self)
        · exact later

/-- What makes `FileAcrossPivots` answer that the files may not be flushed. -/
def Caught (items : IndexItems) (files : List FileMetaData) : Prop :=
  filesInOrder [] files = false ∨
    (∃ smallest ∈ (pivots items).head?, ∃ file ∈ files.head?,
      file.start < smallest) ∨
    Straddled (pivots items).tail files

theorem startsBelow_iff {keys : List Slice} {files : List FileMetaData} :
    startsBelow keys files = true ↔
      ∃ smallest ∈ keys.head?, ∃ file ∈ files.head?, file.start < smallest := by
  cases keys <;> cases files <;> simp [startsBelow]

/-- `FileAcrossPivots` always answers, and its answer is `Caught`. -/
theorem fileAcrossPivots_spec {items : IndexItems}
    (increasing : (pivots items).Pairwise (· < ·)) (files : List FileMetaData) :
    ∃ answer, fileAcrossPivots items files = some answer ∧
      (answer.across = true ↔ Caught items files) := by
  rw [fileAcrossPivots]
  by_cases inOrder : filesInOrder [] files = true
  · rw [if_pos inOrder, acrossLoop_eq (by rw [pivots_length])]
    refine ⟨_, rfl, ?_⟩
    have notOutOfOrder : filesInOrder [] files ≠ false := by simp [inOrder]
    have straddled := acrossWalk_iff
      (increasing.sublist (List.tail_sublist (pivots items))) files
    simp only [Caught, notOutOfOrder, ← startsBelow_iff]
    by_cases below : startsBelow (pivots items) files = true
    · simp [below]
    · simp [below, straddled]
  · rw [if_neg inOrder]
    refine ⟨⟨true, 0⟩, rfl, ?_⟩
    simpa [Caught] using .inl (by simpa using inOrder)

/-! ## What a flush needs -/

/-- An internal page: at least one child, and ascending pivots. -/
structure InternalPage where
  items : IndexItems
  increasing : (pivots items).Pairwise (· < ·)
  nonempty : items ≠ []

/-- Sorted files whose ranges share at most an end. -/
def Separate (files : List FileMetaData) : Prop :=
  files.Pairwise (fun earlier later => earlier.limit ≤ later.start)

instance (files : List FileMetaData) : Decidable (Separate files) :=
  inferInstanceAs (Decidable (files.Pairwise _))

theorem Separate.startSorted {files : List FileMetaData}
    (separate : Separate files) : StartSorted files := by
  refine List.Pairwise.imp ?_ separate
  intro earlier later apart
  exact earlier.start_le_limit.trans apart

/-- The whole range of the file lies between the pivot at `index` and the next
one. -/
def Between (items : IndexItems) (index : Nat) (file : FileMetaData) : Prop :=
  (∀ place ∈ items[index]?, place.1 ≤ file.start) ∧
    ∀ next ∈ items[index + 1]?, file.limit < next.1

/-- Every file is flushed to the one child whose interval holds its range, which
is the child a scan visits for every key of the file. -/
def FlushedRight (items : IndexItems) (files : List FileMetaData) : Prop :=
  ∃ flushed, flushFilesToChildrenNoSplit items files = some flushed ∧
    ∀ file ∈ files, ∃ index place, items[index]? = some place ∧
      Between items index file ∧
      (∀ chosen, Lib.Deals flushed chosen file ↔ chosen = place.2) ∧
      ∀ key, file.Covers key → Visits items key place.2

/-- The check answers, and files it lets through can be flushed as they are. -/
def FlushSafe (items : IndexItems) (files : List FileMetaData) : Prop :=
  ∃ answer, fileAcrossPivots items files = some answer ∧
    (answer.across = false → Separate files ∧ FlushedRight items files)

/-- The file reaches from below a pivot other than the first exactly up to it. -/
def EndsOnPivot (items : IndexItems) (file : FileMetaData) : Prop :=
  ∃ pivot ∈ (pivots items).tail, file.start < pivot ∧ pivot = file.limit

instance (items : IndexItems) (file : FileMetaData) :
    Decidable (EndsOnPivot items file) :=
  inferInstanceAs (Decidable (∃ pivot ∈ (pivots items).tail, _))

variable {files : List FileMetaData} {file : FileMetaData}

/-- On separate files a walk cannot pass a pivot too early. -/
theorem straddled_of_separate {keys : List Slice} {pivot : Slice}
    (separate : Separate files) (member : file ∈ files) (isPivot : pivot ∈ keys)
    (starts : file.start < pivot) (ends : pivot < file.limit) :
    Straddled keys files := by
  obtain ⟨before, behind, rfl⟩ := List.append_of_mem member
  refine ⟨before, file, behind, pivot, rfl, isPivot, starts, ends, ?_⟩
  rintro earlier isEarlier ⟨passed, -⟩
  have apart : earlier.limit ≤ file.start :=
    (List.pairwise_append.mp separate).2.2 earlier isEarlier file
      List.mem_cons_self
  exact absurd (earlier.start_le_limit.trans_lt (apart.trans_lt starts))
    (not_lt.mpr passed)

theorem smallest_le_start {items : IndexItems} (separate : Separate files)
    (notCaught : ¬ Caught items files) (member : file ∈ files) :
    ∀ smallest ∈ (pivots items).head?, smallest ≤ file.start := by
  intro smallest isSmallest
  cases files with
  | nil => simp at member
  | cons first files =>
      have firstNotBelow : smallest ≤ first.start := by
        rw [← not_lt]
        intro below
        exact notCaught (.inr (.inl ⟨smallest, isSmallest, first, rfl, below⟩))
      rcases List.mem_cons.mp member with rfl | later
      · exact firstNotBelow
      · have apart := (List.pairwise_cons.mp separate).1 file later
        exact firstNotBelow.trans (first.start_le_limit.trans apart)

namespace InternalPage

variable (page : InternalPage) {index : Nat} {place : Slice × PageId}

theorem pivot_lt_of_lt {later : Nat} {front behind : Slice × PageId}
    (order : index < later) (atFront : page.items[index]? = some front)
    (atBehind : page.items[later]? = some behind) : front.1 < behind.1 := by
  obtain ⟨frontInside, rfl⟩ := List.getElem?_eq_some_iff.mp atFront
  obtain ⟨behindInside, rfl⟩ := List.getElem?_eq_some_iff.mp atBehind
  have increasing := List.pairwise_iff_getElem.mp page.increasing index later
    (by simpa using frontInside) (by simpa using behindInside) order
  simpa [pivots] using increasing

/-- No pivot lies in the range of a file that is between two pivots, unless the
file starts on it. -/
theorem not_inside_of_between (atIndex : page.items[index]? = some place)
    (between : Between page.items index file) {pivot : Slice}
    (isPivot : pivot ∈ pivots page.items) :
    ¬ (file.start < pivot ∧ pivot ≤ file.limit) := by
  rintro ⟨starts, ends⟩
  obtain ⟨other, atOther, rfl⟩ := List.mem_map.mp isPivot
  obtain ⟨found, hit⟩ := List.getElem?_of_mem atOther
  have behind : index < found := by
    by_contra notBehind
    have notAbove : other.1 ≤ place.1 := by
      rcases Nat.lt_or_eq_of_le (Nat.le_of_not_lt notBehind) with front | same
      · exact (page.pivot_lt_of_lt front hit atIndex).le
      · rw [same, atIndex] at hit
        rw [Option.some.inj hit]
    exact absurd (notAbove.trans (between.1 place atIndex)) (not_le.mpr starts)
  have foundInside := (List.getElem?_eq_some_iff.mp hit).1
  obtain ⟨next, atNext⟩ : ∃ next, page.items[index + 1]? = some next :=
    ⟨_, List.getElem?_eq_getElem (by omega)⟩
  have notBelow : next.1 ≤ other.1 := by
    rcases Nat.lt_or_eq_of_le (show index + 1 ≤ found from behind) with more | same
    · exact (page.pivot_lt_of_lt more atNext hit).le
    · rw [← same, atNext] at hit
      rw [Option.some.inj hit]
  exact absurd (notBelow.trans ends) (not_le.mpr (between.2 next atNext))

/-- A file that does not start below the page and has no pivot inside lies
between two pivots. -/
theorem exists_between
    (started : ∀ smallest ∈ (pivots page.items).head?, smallest ≤ file.start)
    (clear : ∀ pivot ∈ (pivots page.items).tail,
      ¬ (file.start < pivot ∧ pivot ≤ file.limit)) :
    ∃ index place, page.items[index]? = some place ∧
      Between page.items index file := by
  obtain ⟨place, atOffset, -, reached, ended⟩ :=
    ownerOf_reaches page.increasing page.nonempty file.start
  generalize pageFindOffset page.items file.start = index at *
  refine ⟨index, place, atOffset, ?_, ?_⟩
  · intro same isSame
    obtain rfl : place = same := Option.some.inj (atOffset.symm.trans isSame)
    rcases reached with rfl | reached
    · apply started
      simp [pivots, List.head?_eq_getElem?, atOffset]
    · exact reached
  · intro next isNext
    have atTail : next.1 ∈ (pivots page.items).tail := by
      apply List.mem_of_getElem? (i := index)
      have atNext : page.items[index + 1]? = some next := isNext
      rw [List.getElem?_tail, pivots, List.getElem?_map, atNext]
      rfl
    exact not_le.mp (fun ends => clear next.1 atTail ⟨ended next isNext, ends⟩)

theorem flush_eq_of_notCaught (notCaught : ¬ Caught page.items files) :
    flushFilesToChildrenNoSplit page.items files =
      some (Lib.cut flushLeavesTo page.items files) := by
  refine flushFilesToChildrenNoSplit_eq ?_
  intro pivot child file single isHead
  rw [← not_lt]
  intro below
  refine notCaught (.inr (.inl ⟨pivot, ?_, file, isHead, below⟩))
  simp [single]

/-- A file between two pivots is flushed to the child that scans visit for its
keys. -/
theorem flushed_of_between (separate : Separate files) (member : file ∈ files)
    (atIndex : page.items[index]? = some place)
    (between : Between page.items index file) :
    (∀ chosen, Lib.Deals (Lib.cut flushLeavesTo page.items files) chosen file ↔
        chosen = place.2) ∧
      ∀ key, file.Covers key → Visits page.items key place.2 := by
  constructor
  · intro chosen
    have owner : Lib.ownerOf flushLeavesTo page.items file = some place.2 :=
      ownerOf_flush_of_start page.increasing atIndex
        (.inr (between.1 place atIndex))
        (fun next isNext =>
          file.start_le_limit.trans_lt (between.2 next isNext))
    rw [Lib.deals_cut_iff (flush_respects separate.startSorted) member, owner]
    simp [eq_comm]
  · intro key covered
    apply visits_of_ownerOf page.increasing
    exact ownerOf_reaches_of_place page.increasing atIndex
      (.inr ((between.1 place atIndex).trans covered.1))
      (fun next isNext => covered.2.trans_lt (between.2 next isNext))

theorem flushedRight_of_clear (separate : Separate files)
    (notCaught : ¬ Caught page.items files)
    (offPivots : ∀ file ∈ files, ¬ EndsOnPivot page.items file) :
    FlushedRight page.items files := by
  refine ⟨_, page.flush_eq_of_notCaught notCaught, ?_⟩
  intro file member
  obtain ⟨index, place, atIndex, between⟩ := page.exists_between
    (smallest_le_start separate notCaught member) (by
      rintro pivot isPivot ⟨starts, ends⟩
      rcases lt_or_eq_of_le ends with inside | onPivot
      · exact notCaught (.inr (.inr
          (straddled_of_separate separate member isPivot starts inside)))
      · exact offPivots file member ⟨pivot, isPivot, starts, onPivot⟩)
  exact ⟨index, place, atIndex, between,
    page.flushed_of_between separate member atIndex between⟩

/-- Files are flushed safely exactly when the check stops them, or they are in
byte order and none ends on a pivot it starts below. -/
theorem flushSafe_iff (page : InternalPage) (files : List FileMetaData) :
    FlushSafe page.items files ↔
      Caught page.items files ∨
        (Separate files ∧ ∀ file ∈ files, ¬ EndsOnPivot page.items file) := by
  obtain ⟨answer, answered, across⟩ := fileAcrossPivots_spec page.increasing files
  constructor
  · rintro ⟨sameAnswer, isSame, safe⟩
    obtain rfl : answer = sameAnswer := Option.some.inj (answered.symm.trans isSame)
    by_cases caught : Caught page.items files
    · exact .inl caught
    · obtain ⟨separate, flushed, -, right⟩ := safe
        (Bool.eq_false_iff.mpr (mt across.mp caught))
      refine .inr ⟨separate, ?_⟩
      rintro file member ⟨pivot, isPivot, starts, onPivot⟩
      obtain ⟨index, place, atIndex, between, -, -⟩ := right file member
      exact page.not_inside_of_between atIndex between
        (List.mem_of_mem_tail isPivot) ⟨starts, onPivot.le⟩
  · intro condition
    refine ⟨answer, answered, ?_⟩
    intro passed
    have notCaught : ¬ Caught page.items files := by
      rw [← across, passed]
      exact Bool.false_ne_true
    obtain ⟨separate, offPivots⟩ := condition.resolve_left notCaught
    exact ⟨separate, page.flushedRight_of_clear separate notCaught offPivots⟩

/-- A page with children from `[1]` and from `[4]` on. -/
def twoChildren : InternalPage where
  items := [([1], 7), ([4], 8)]
  increasing := by decide
  nonempty := by decide

/-- A file that ends on the second pivot passes the check, although its largest
key belongs to the second child. -/
theorem fileAcrossPivots_misses_shared_end :
    ¬ ∀ (page : InternalPage) (files : List FileMetaData),
      FlushSafe page.items files := by
  intro claim
  obtain ⟨answer, answered, safe⟩ :=
    claim twoChildren [FileMetaData.spanning 20 [2] [4] (by decide)]
  have computed : fileAcrossPivots twoChildren.items
      [FileMetaData.spanning 20 [2] [4] (by decide)] = some ⟨false, 0⟩ := by
    decide
  obtain rfl := Option.some.inj (answered.symm.trans computed)
  obtain ⟨-, flushed, -, right⟩ := safe rfl
  obtain ⟨index, place, atIndex, between, -, -⟩ :=
    right (FileMetaData.spanning 20 [2] [4] (by decide)) (by simp)
  exact twoChildren.not_inside_of_between atIndex between
    (by decide : ([4] : Slice) ∈ pivots twoChildren.items) (by decide)

/-- The order check reads its keys as C strings: behind a zero byte it sees no
difference, and lets files through that are out of order. -/
example : fileAcrossPivots twoChildren.items
      [FileMetaData.spanning 20 [2, 0, 9] [2, 0, 9] (by decide),
        FileMetaData.spanning 21 [2, 0, 5] [2, 0, 5] (by decide)] =
      some ⟨false, 0⟩ := by
  decide

end InternalPage

end AhaTree
