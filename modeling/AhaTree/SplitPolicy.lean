import AhaTree.LeafMerge
import Mathlib.Algebra.BigOperators.Group.List.Basic
import Mathlib.Algebra.Order.Floor.Div
import Mathlib.Tactic.Ring

/-!
# Page split policies

`WriteToPage` takes the first page without asking and asks its policy before
every further entry.  A policy that was told the number of entries follows a
plan of page sizes: the even one spreads the entries over as few pages as
possible, the randomised one draws sizes until two pages are enough.
-/

namespace AhaTree

/-! ## The loop over the entries -/

/-- The sizes of the pages that `WriteToPage` fills with so many entries, the
newest page in front; no page rejects an entry here. -/
def splitLoop (policy : PageSplitPolicy) :
    Nat → policy.State → List Nat → Option (List Nat)
  | 0, _, sizes => some sizes.reverse
  | left + 1, state, [] => splitLoop policy left state [1]
  | left + 1, state, size :: sizes =>
      (policy.shouldAllocPage size state).bind (fun answer =>
        if answer.1 then splitLoop policy left answer.2 (1 :: size :: sizes)
        else splitLoop policy left answer.2 ((size + 1) :: sizes))

def pageSizes (policy : PageSplitPolicy) (nonDup : Nat) : Option (List Nat) :=
  (policy.init nonDup).bind (fun state => splitLoop policy nonDup state [])

/-- The number of entries that the policies let into a page. -/
def pageCap (keySize valueSize : Nat) : Nat :=
  (pageSize - 8) / (keySize + valueSize + 3 * itemIdSize)

/-! ## The randomised policy -/

/-- The fields of a `SoundRemedySplitPolicy`, with the number of page sizes it
has drawn. -/
structure SoundRemedy where
  nonDup : Nat
  lastTwoPages : Bool
  curPageCap : Nat
  drawn : Nat
  deriving DecidableEq, Repr

namespace SoundRemedy

/-- The choice of the next page size in `Init` and in `ShouldAllocPage`. -/
def choosePageCap (maxCap : Nat) (getOnePageCap : Nat → Nat) (split : SoundRemedy) :
    SoundRemedy :=
  if split.nonDup ≤ maxCap then
    { split with lastTwoPages := true, curPageCap := split.nonDup }
  else if split.nonDup ≤ (3 * maxCap + 1) / 2 then
    { split with
      lastTwoPages := true
      curPageCap := split.nonDup / 2 + if 0 < split.nonDup % 2 then 1 else 0 }
  else
    { split with
      curPageCap := getOnePageCap split.drawn
      drawn := split.drawn + 1 }

/-- `non_dup_ -= cur_page_cap_`. -/
def takePage (split : SoundRemedy) : SoundRemedy :=
  { split with nonDup := split.nonDup - split.curPageCap }

end SoundRemedy

/-- `SoundRemedySplitPolicy` with the successive results of `GetOnePageCap`. -/
def soundRemedyPolicy (maxCap : Nat) (getOnePageCap : Nat → Nat) : PageSplitPolicy where
  State := SoundRemedy
  init nonDup :=
    let split := SoundRemedy.choosePageCap maxCap getOnePageCap ⟨nonDup, false, 0, 0⟩
    if split.curPageCap ≤ maxCap then some split.takePage else none
  shouldAllocPage existingNum split :=
    if split.curPageCap ≤ existingNum then
      if split.nonDup = 0 then none
      else if split.lastTwoPages then
        if split.nonDup ≤ maxCap then
          some (true, SoundRemedy.takePage { split with curPageCap := split.nonDup })
        else none
      else some (true, (split.choosePageCap maxCap getOnePageCap).takePage)
    else some (false, split)

def soundRemedySplitPolicy (getOnePageCap : Nat → Nat) (keySize valueSize : Nat) :
    PageSplitPolicy :=
  soundRemedyPolicy (pageCap keySize valueSize) getOnePageCap

/-! ## Plans -/

/-- From this state on the policy ends a page exactly when it has the next size
of the plan.  After the last page it is not asked again. -/
def Follows (policy : PageSplitPolicy) : policy.State → List Nat → Prop
  | _, [] => True
  | state, cap :: plan =>
      (∀ size, 0 < size → size < cap →
        policy.shouldAllocPage size state = some (false, state)) ∧
      (plan ≠ [] → ∃ next, policy.shouldAllocPage cap state = some (true, next) ∧
        Follows policy next plan)

section

variable {policy : PageSplitPolicy} {state : policy.State} {cap size : Nat}
  {plan closed : List Nat}

/-- The open page grows to its planned size. -/
theorem splitLoop_grow (follows : Follows policy state (cap :: plan)) (filled : 0 < size)
    (room left : Nat) (fits : size + room ≤ cap) :
    splitLoop policy (room + left) state (size :: closed) =
      splitLoop policy left state ((size + room) :: closed) := by
  induction room generalizing size with
  | zero => rw [Nat.zero_add, Nat.add_zero]
  | succ room ih =>
      have stays : policy.shouldAllocPage size state = some (false, state) :=
        follows.1 size filled (by omega)
      have order : room + 1 + left = room + left + 1 := by omega
      rw [order, splitLoop, stays, Option.bind_some, if_neg Bool.false_ne_true,
        ih (Nat.succ_pos _) (by omega), Nat.succ_add_eq_add_succ]

theorem splitLoop_of_follows (follows : Follows policy state (cap :: plan))
    (filled : 0 < size) (fits : size ≤ cap) (positive : ∀ other ∈ plan, 0 < other) :
    splitLoop policy (cap - size + plan.sum) state (size :: closed) =
      some (closed.reverse ++ cap :: plan) := by
  induction plan generalizing state cap size closed with
  | nil =>
      rw [splitLoop_grow follows filled _ _ (by omega), Nat.add_sub_cancel' fits, List.sum_nil,
        splitLoop]
      simp
  | cons second plan ih =>
      obtain ⟨next, allocates, later⟩ := follows.2 (List.cons_ne_nil _ _)
      have secondPositive := positive second List.mem_cons_self
      have rest : (second :: plan).sum = (second - 1 + plan.sum) + 1 := by
        rw [List.sum_cons]
        omega
      rw [splitLoop_grow follows filled _ _ (by omega), Nat.add_sub_cancel' fits, rest,
        splitLoop, allocates, Option.bind_some, if_pos rfl,
        ih later Nat.one_pos secondPositive
          (fun other member => positive other (List.mem_cons_of_mem _ member))]
      simp

theorem pageSizes_of_follows {nonDup : Nat} (started : policy.init nonDup = some state)
    (follows : Follows policy state plan) (positive : ∀ other ∈ plan, 0 < other)
    (total : plan.sum = nonDup) : pageSizes policy nonDup = some plan := by
  rw [pageSizes, started, Option.bind_some]
  cases plan with
  | nil =>
      rw [← total]
      rfl
  | cons cap plan =>
      have capPositive := positive cap List.mem_cons_self
      have first : nonDup = (cap - 1 + plan.sum) + 1 := by
        rw [← total, List.sum_cons]
        omega
      rw [first, splitLoop, splitLoop_of_follows follows Nat.one_pos capPositive
        (fun other member => positive other (List.mem_cons_of_mem _ member))]
      rfl

end

/-! ## The even policy -/

section

variable {keySize valueSize : Nat}

/-- After the larger pages the size does not change any more. -/
theorem evenSplit_follows_lesser (curPageNum cap pageNumMaxEntry count : Nat)
    (passed : pageNumMaxEntry ≤ curPageNum) :
    Follows (evenSplitPolicy keySize valueSize) ⟨curPageNum, cap, pageNumMaxEntry⟩
      (List.replicate count cap) := by
  induction count generalizing curPageNum with
  | zero => trivial
  | succ count ih =>
      refine ⟨?_, ?_⟩
      · intro size _ less
        exact if_neg less.not_ge
      · intro _
        refine ⟨⟨curPageNum + 1, cap, pageNumMaxEntry⟩, ?_, ih (curPageNum + 1) (by omega)⟩
        have other : ¬ curPageNum + 1 = pageNumMaxEntry := by omega
        simp [evenSplitPolicy, other]

theorem evenSplit_follows (curPageNum cap pageNumMaxEntry larger lesser : Nat)
    (count : pageNumMaxEntry = curPageNum + (larger + 1)) :
    Follows (evenSplitPolicy keySize valueSize) ⟨curPageNum, cap, pageNumMaxEntry⟩
      (List.replicate (larger + 1) cap ++ List.replicate lesser (cap - 1)) := by
  induction larger generalizing curPageNum with
  | zero =>
      refine ⟨?_, ?_⟩
      · intro size _ less
        exact if_neg less.not_ge
      · intro _
        refine ⟨⟨curPageNum + 1, cap - 1, pageNumMaxEntry⟩, ?_,
          evenSplit_follows_lesser _ _ _ _ (by omega)⟩
        have last : curPageNum + 1 = pageNumMaxEntry := by omega
        simp [evenSplitPolicy, last]
  | succ larger ih =>
      refine ⟨?_, ?_⟩
      · intro size _ less
        exact if_neg less.not_ge
      · intro _
        refine ⟨⟨curPageNum + 1, cap, pageNumMaxEntry⟩, ?_, ih (curPageNum + 1) (by omega)⟩
        have other : ¬ curPageNum + 1 = pageNumMaxEntry := by omega
        simp [evenSplitPolicy, other]

/-- The two operations with which the source rounds a quotient up. -/
theorem div_add_ite_mod (number : Nat) {divisor : Nat} (positive : 0 < divisor) :
    number / divisor + (if 0 < number % divisor then 1 else 0) = number ⌈/⌉ divisor := by
  have whole := Nat.div_add_mod number divisor
  have small := Nat.mod_lt number positive
  refine eq_of_forall_ge_iff ?_
  intro bound
  rw [ceilDiv_le_iff_le_mul positive]
  constructor
  · intro enough
    have scaled := Nat.mul_le_mul_left divisor enough
    rw [Nat.mul_add] at scaled
    by_cases rest : 0 < number % divisor
    · rw [if_pos rest] at scaled
      omega
    · omega
  · intro enough
    by_contra more
    by_cases rest : 0 < number % divisor
    · rw [if_pos rest] at more
      have below := Nat.mul_le_mul_left divisor (show bound ≤ number / divisor by omega)
      omega
    · rw [if_neg rest, Nat.add_zero] at more
      have below := Nat.mul_le_mul_left divisor (show bound + 1 ≤ number / divisor by omega)
      rw [Nat.mul_add] at below
      omega

theorem ceilDiv_pos {number divisor : Nat} (positive : 0 < divisor) (some_entry : 0 < number) :
    0 < number ⌈/⌉ divisor := by
  by_contra none
  have bounded := (ceilDiv_le_iff_le_mul positive).mp (not_lt.mp none)
  omega

/-- The pages that `Init` plans: so many with the larger size, and the others with
one entry less. -/
theorem evenSplit_counts {nonDup capacity total cap : Nat} (some_entry : 0 < nonDup)
    (room : 0 < capacity) (isTotal : total = nonDup ⌈/⌉ capacity)
    (isCap : cap = nonDup ⌈/⌉ total) :
    0 < total ∧ 0 < cap ∧ cap ≤ capacity ∧ total * (cap - 1) < nonDup ∧
      nonDup - total * (cap - 1) ≤ total ∧
      (cap = 1 → nonDup - total * (cap - 1) = total) := by
  have totalPositive : 0 < total := by
    rw [isTotal]
    exact ceilDiv_pos room some_entry
  have few : total ≤ nonDup := by
    rw [isTotal, ceilDiv_le_iff_le_mul room]
    exact Nat.le_mul_of_pos_left nonDup room
  have enough : nonDup ≤ capacity * total := by
    rw [← ceilDiv_le_iff_le_mul room, isTotal]
  have holds : nonDup ≤ total * cap := by
    rw [← ceilDiv_le_iff_le_mul totalPositive, isCap]
  have capPositive : 0 < cap := by
    rw [isCap]
    exact ceilDiv_pos totalPositive some_entry
  have tight : total * (cap - 1) < nonDup := by
    by_contra more
    have less := (ceilDiv_le_iff_le_mul totalPositive).mpr (not_lt.mp more)
    omega
  refine ⟨totalPositive, capPositive, ?_, tight, ?_, ?_⟩
  · rw [isCap, ceilDiv_le_iff_le_mul totalPositive, Nat.mul_comm]
    exact enough
  · obtain ⟨less, rfl⟩ : ∃ less, cap = less + 1 := ⟨cap - 1, by omega⟩
    rw [Nat.mul_add, Nat.mul_one] at holds
    rw [Nat.add_sub_cancel]
    omega
  · rintro rfl
    omega

/-- The sizes that an even split gives to the pages. -/
def evenSizes (capacity nonDup : Nat) : List Nat :=
  let total := nonDup ⌈/⌉ capacity
  let cap := nonDup ⌈/⌉ total
  let larger := nonDup - total * (cap - 1)
  List.replicate larger cap ++ List.replicate (total - larger) (cap - 1)

theorem mem_evenSizes {capacity nonDup : Nat} (member : size ∈ evenSizes capacity nonDup) :
    size = nonDup ⌈/⌉ (nonDup ⌈/⌉ capacity) ∨
      size = nonDup ⌈/⌉ (nonDup ⌈/⌉ capacity) - 1 ∧
        nonDup - nonDup ⌈/⌉ capacity * (nonDup ⌈/⌉ (nonDup ⌈/⌉ capacity) - 1) ≠
          nonDup ⌈/⌉ capacity := by
  rcases List.mem_append.mp member with isLarger | isLesser
  · exact .inl (List.eq_of_mem_replicate isLarger)
  · refine .inr ⟨List.eq_of_mem_replicate isLesser, ?_⟩
    intro full
    rw [full, Nat.sub_self] at isLesser
    cases isLesser

theorem evenSizes_sum {capacity nonDup : Nat} (some_entry : 0 < nonDup) (room : 0 < capacity) :
    (evenSizes capacity nonDup).sum = nonDup := by
  obtain ⟨totalPositive, capPositive, -, tight, few, -⟩ :=
    evenSplit_counts some_entry room rfl rfl
  simp only [evenSizes, List.sum_append, List.sum_replicate, smul_eq_mul]
  generalize nonDup ⌈/⌉ capacity = total at *
  generalize nonDup ⌈/⌉ total = cap at *
  obtain ⟨less, rfl⟩ : ∃ less, cap = less + 1 := ⟨cap - 1, by omega⟩
  rw [Nat.add_sub_cancel] at *
  obtain ⟨lesser, isTotal⟩ := Nat.exists_eq_add_of_le few
  have whole : nonDup - total * less + total * less = nonDup := Nat.sub_add_cancel tight.le
  generalize nonDup - total * less = larger at *
  rw [isTotal, Nat.add_sub_cancel_left, ← whole, isTotal]
  ring

theorem evenSizes_pos {capacity nonDup : Nat} (some_entry : 0 < nonDup) (room : 0 < capacity) :
    ∀ other ∈ evenSizes capacity nonDup, 0 < other := by
  obtain ⟨totalPositive, capPositive, -, tight, few, single⟩ :=
    evenSplit_counts some_entry room rfl rfl
  intro other member
  rcases mem_evenSizes member with rfl | ⟨rfl, several⟩
  · exact capPositive
  · have notOne : nonDup ⌈/⌉ (nonDup ⌈/⌉ capacity) ≠ 1 := fun isOne => several (single isOne)
    omega

theorem evenSplit_init {nonDup : Nat} (some_entry : 0 < nonDup)
    (room : 0 < pageCap keySize valueSize) :
    (evenSplitPolicy keySize valueSize).init nonDup =
      some ⟨0, nonDup ⌈/⌉ (nonDup ⌈/⌉ pageCap keySize valueSize),
        nonDup - nonDup ⌈/⌉ pageCap keySize valueSize *
          (nonDup ⌈/⌉ (nonDup ⌈/⌉ pageCap keySize valueSize) - 1)⟩ := by
  obtain ⟨totalPositive, capPositive, fits, tight, few, -⟩ :=
    evenSplit_counts some_entry room rfl rfl
  have total := evenSizes_sum some_entry room
  simp only [evenSizes, List.sum_append, List.sum_replicate, smul_eq_mul] at total
  have capacity : (pageSize - 8) / (keySize + valueSize + 3 * itemIdSize) =
      pageCap keySize valueSize := rfl
  simp only [evenSplitPolicy, capacity, div_add_ite_mod nonDup room]
  rw [if_neg (by omega)]
  simp only [div_add_ite_mod nonDup totalPositive]
  rw [if_pos ⟨fits, total⟩]

theorem evenSplit_plan {nonDup : Nat} (some_entry : 0 < nonDup)
    (room : 0 < pageCap keySize valueSize) :
    pageSizes (evenSplitPolicy keySize valueSize) nonDup =
      some (evenSizes (pageCap keySize valueSize) nonDup) := by
  obtain ⟨-, -, -, tight, -, -⟩ := evenSplit_counts some_entry room rfl rfl
  refine pageSizes_of_follows (evenSplit_init some_entry room) ?_
    (evenSizes_pos some_entry room) (evenSizes_sum some_entry room)
  obtain ⟨larger, isLarger⟩ : ∃ larger, nonDup - nonDup ⌈/⌉ pageCap keySize valueSize *
      (nonDup ⌈/⌉ (nonDup ⌈/⌉ pageCap keySize valueSize) - 1) = larger + 1 :=
    ⟨_, (Nat.succ_pred_eq_of_pos (by omega)).symm⟩
  simp only [evenSizes, isLarger]
  exact evenSplit_follows 0 _ _ larger _ (Nat.zero_add _).symm

/-- The even policy takes as few pages as possible, and their sizes differ by at
most one. -/
theorem evenSplit_balanced (keySize valueSize nonDup : Nat) (some_entry : 1 ≤ nonDup)
    (room : 1 ≤ pageCap keySize valueSize) :
    ∃ sizes, pageSizes (evenSplitPolicy keySize valueSize) nonDup = some sizes ∧
      sizes.length = nonDup ⌈/⌉ pageCap keySize valueSize ∧
      (∀ size ∈ sizes, size ≤ pageCap keySize valueSize) ∧ sizes.sum = nonDup ∧
      ∀ left ∈ sizes, ∀ right ∈ sizes, left ≤ right + 1 := by
  obtain ⟨totalPositive, capPositive, fits, tight, few, -⟩ :=
    evenSplit_counts some_entry room rfl rfl
  refine ⟨_, evenSplit_plan some_entry room, ?_, ?_, evenSizes_sum some_entry room, ?_⟩
  · simp only [evenSizes, List.length_append, List.length_replicate]
    omega
  · intro size member
    rcases mem_evenSizes member with rfl | ⟨rfl, -⟩ <;> omega
  · intro left isLeft right isRight
    rcases mem_evenSizes isLeft with rfl | ⟨rfl, -⟩ <;>
      rcases mem_evenSizes isRight with rfl | ⟨rfl, -⟩ <;> omega

/-- Thirteen pages of the test hold 48 entries, the others 47. -/
theorem evenSplit_balanced_thousand :
    ∃ sizes, pageSizes (evenSplitPolicy 28 128) 1000 = some sizes ∧
      sizes.length = 1000 ⌈/⌉ pageCap 28 128 ∧
      (∀ size ∈ sizes, size ≤ pageCap 28 128) ∧ sizes.sum = 1000 ∧
      ∀ left ∈ sizes, ∀ right ∈ sizes, left ≤ right + 1 :=
  evenSplit_balanced 28 128 1000 (by decide) (by decide)

end

/-! ## The randomised policy keeps pages half full -/

section

variable {maxCap nonDup : Nat} {getOnePageCap : Nat → Nat} {split : SoundRemedy}

/-- The size of the page that `choosePageCap` starts. -/
theorem choosePageCap_cases (split : SoundRemedy) :
    (split.nonDup ≤ maxCap ∧
        (split.choosePageCap maxCap getOnePageCap).takePage =
          ⟨0, true, split.nonDup, split.drawn⟩) ∨
      (maxCap < split.nonDup ∧ split.nonDup ≤ (3 * maxCap + 1) / 2 ∧
        (split.choosePageCap maxCap getOnePageCap).takePage =
          ⟨split.nonDup / 2, true, (split.nonDup + 1) / 2, split.drawn⟩) ∨
      ((3 * maxCap + 1) / 2 < split.nonDup ∧
        (split.choosePageCap maxCap getOnePageCap).takePage =
          ⟨split.nonDup - getOnePageCap split.drawn, split.lastTwoPages,
            getOnePageCap split.drawn, split.drawn + 1⟩) := by
  by_cases single : split.nonDup ≤ maxCap
  · refine .inl ⟨single, ?_⟩
    simp [SoundRemedy.choosePageCap, SoundRemedy.takePage, single]
  · by_cases two : split.nonDup ≤ (3 * maxCap + 1) / 2
    · have rounded : (split.nonDup / 2 + if 0 < split.nonDup % 2 then 1 else 0) =
          (split.nonDup + 1) / 2 := by
        split <;> omega
      have left : split.nonDup - (split.nonDup + 1) / 2 = split.nonDup / 2 := by omega
      refine .inr (.inl ⟨not_le.mp single, two, ?_⟩)
      simp [SoundRemedy.choosePageCap, SoundRemedy.takePage, single, two, rounded, left]
    · refine .inr (.inr ⟨not_le.mp two, ?_⟩)
      simp [SoundRemedy.choosePageCap, SoundRemedy.takePage, single, two]

/-- The last page ends when the entries do. -/
theorem soundRemedy_follows_single :
    Follows (soundRemedyPolicy maxCap getOnePageCap) split [split.curPageCap] := by
  refine ⟨?_, fun more => absurd rfl more⟩
  intro size _ less
  exact if_neg less.not_ge

/-- The first page of a plan, if the policy goes on with the others. -/
theorem soundRemedy_follows_cons {next : SoundRemedy} {plan : List Nat}
    (allocates : (soundRemedyPolicy maxCap getOnePageCap).shouldAllocPage split.curPageCap
      split = some (true, next))
    (later : Follows (soundRemedyPolicy maxCap getOnePageCap) next plan) :
    Follows (soundRemedyPolicy maxCap getOnePageCap) split (split.curPageCap :: plan) := by
  refine ⟨?_, fun _ => ⟨next, allocates, later⟩⟩
  intro size _ less
  exact if_neg less.not_ge

/-- From two entries a page on, the drawn sizes are those of the pages. -/
theorem soundRemedy_follows (several : 2 ≤ maxCap)
    (inRange : ∀ index, maxCap / 2 ≤ getOnePageCap index ∧ getOnePageCap index ≤ maxCap)
    (filled : 0 < split.nonDup) (early : split.lastTwoPages = false) :
    ∃ rest plan, Follows (soundRemedyPolicy maxCap getOnePageCap)
        (split.choosePageCap maxCap getOnePageCap).takePage plan ∧
      plan = (split.choosePageCap maxCap getOnePageCap).takePage.curPageCap :: rest ∧
      plan.sum = split.nonDup ∧ (∀ size ∈ plan, 0 < size ∧ size ≤ maxCap) ∧
      (maxCap / 2 ≤ split.nonDup → ∀ size ∈ plan, maxCap / 2 ≤ size) := by
  induction count : split.nonDup using Nat.strong_induction_on generalizing split with
  | h nonDup ih =>
      subst count
      rcases @choosePageCap_cases maxCap getOnePageCap split with
        ⟨single, chosen⟩ | ⟨more, two, chosen⟩ | ⟨many, chosen⟩
      · rw [chosen]
        refine ⟨[], [split.nonDup], soundRemedy_follows_single, rfl, List.sum_singleton,
          ?_, ?_⟩
        · intro size member
          rw [List.mem_singleton.mp member]
          exact ⟨filled, single⟩
        · intro half size member
          rw [List.mem_singleton.mp member]
          exact half
      · rw [chosen]
        have next : (soundRemedyPolicy maxCap getOnePageCap).shouldAllocPage
            ((split.nonDup + 1) / 2)
            ⟨split.nonDup / 2, true, (split.nonDup + 1) / 2, split.drawn⟩ =
              some (true, ⟨0, true, split.nonDup / 2, split.drawn⟩) := by
          have left : split.nonDup / 2 ≠ 0 := by omega
          have fits : split.nonDup / 2 ≤ maxCap := by omega
          simp [soundRemedyPolicy, SoundRemedy.takePage, left, fits]
        refine ⟨[split.nonDup / 2], [(split.nonDup + 1) / 2, split.nonDup / 2],
          soundRemedy_follows_cons next soundRemedy_follows_single, rfl, ?_, ?_, ?_⟩
        · simp only [List.sum_cons, List.sum_nil]
          omega
        · intro size member
          rcases List.mem_pair.mp member with rfl | rfl <;> omega
        · intro half size member
          rcases List.mem_pair.mp member with rfl | rfl <;> omega
      · rw [chosen]
        obtain ⟨atLeast, atMost⟩ := inRange split.drawn
        obtain ⟨-, plan, follows, -, total, sizes, halves⟩ :=
          @ih (split.nonDup - getOnePageCap split.drawn) (by omega)
            ⟨split.nonDup - getOnePageCap split.drawn, split.lastTwoPages,
              getOnePageCap split.drawn, split.drawn + 1⟩ (by simp only; omega) early rfl
        have next : (soundRemedyPolicy maxCap getOnePageCap).shouldAllocPage
            (getOnePageCap split.drawn) ⟨split.nonDup - getOnePageCap split.drawn,
              split.lastTwoPages, getOnePageCap split.drawn, split.drawn + 1⟩ =
              some (true, (SoundRemedy.choosePageCap maxCap getOnePageCap
                ⟨split.nonDup - getOnePageCap split.drawn, split.lastTwoPages,
                  getOnePageCap split.drawn, split.drawn + 1⟩).takePage) := by
          have left : split.nonDup - getOnePageCap split.drawn ≠ 0 := by omega
          simp [soundRemedyPolicy, early, left]
        refine ⟨plan, getOnePageCap split.drawn :: plan,
          soundRemedy_follows_cons next follows, rfl, ?_, ?_, ?_⟩
        · rw [List.sum_cons, total]
          omega
        · intro size member
          rcases List.mem_cons.mp member with rfl | later
          · omega
          · exact sizes size later
        · intro _ size member
          rcases List.mem_cons.mp member with rfl | later
          · exact atLeast
          · exact halves (by omega) size later

/-- With one entry a page the policy may draw empty pages, but each page still
takes an entry. -/
theorem soundRemedy_follows_ones (inRange : ∀ index, getOnePageCap index ≤ 1)
    (pages : Nat) (small : split.curPageCap ≤ 1) (left : pages ≤ split.nonDup)
    (late : split.lastTwoPages = true → split.nonDup ≤ 1) :
    Follows (soundRemedyPolicy 1 getOnePageCap) split (List.replicate (pages + 1) 1) := by
  induction pages generalizing split with
  | zero =>
      refine ⟨?_, fun more => absurd rfl more⟩
      intro size positive less
      omega
  | succ pages ih =>
      refine ⟨fun size positive less => by omega, fun _ => ?_⟩
      have filled : split.nonDup ≠ 0 := by omega
      cases last : split.lastTwoPages with
      | true =>
          have one := late last
          refine ⟨SoundRemedy.takePage { split with curPageCap := split.nonDup }, ?_, ?_⟩
          · simp [soundRemedyPolicy, small, filled, last, one]
          · exact ih one (by simp only [SoundRemedy.takePage]; omega)
              (fun _ => by simp only [SoundRemedy.takePage]; omega)
      | false =>
          refine ⟨(split.choosePageCap 1 getOnePageCap).takePage, ?_, ?_⟩
          · simp [soundRemedyPolicy, small, filled, last]
          · rcases @choosePageCap_cases 1 getOnePageCap split with
              ⟨single, chosen⟩ | ⟨more, two, chosen⟩ | ⟨many, chosen⟩ <;> rw [chosen]
            · exact ih single (by simp only; omega) (fun _ => Nat.zero_le 1)
            · exact ih (by simp only; omega) (by simp only; omega) (fun _ => by
                simp only
                omega)
            · have drawn := inRange split.drawn
              refine ih drawn (by simp only; omega) (fun isLast => ?_)
              rw [last] at isLast
              cases isLast

/-- The first page is not larger than allowed. -/
theorem soundRemedy_init (inRange : ∀ index, getOnePageCap index ≤ maxCap)
    (room : 1 ≤ maxCap) :
    (soundRemedyPolicy maxCap getOnePageCap).init nonDup =
      some (SoundRemedy.choosePageCap maxCap getOnePageCap ⟨nonDup, false, 0, 0⟩).takePage := by
  have fits : ((SoundRemedy.choosePageCap maxCap getOnePageCap
      ⟨nonDup, false, 0, 0⟩).takePage).curPageCap ≤ maxCap := by
    rcases @choosePageCap_cases maxCap getOnePageCap ⟨nonDup, false, 0, 0⟩ with
      ⟨single, chosen⟩ | ⟨more, two, chosen⟩ | ⟨many, chosen⟩ <;> rw [chosen]
    · exact single
    · simp only at two ⊢
      omega
    · exact inRange 0
  exact if_pos fits

/-- The pages of a stream, of which the first one is the first choice. -/
theorem soundRemedy_plan (some_entry : 1 ≤ nonDup) (room : 1 ≤ maxCap)
    (inRange : ∀ index, maxCap / 2 ≤ getOnePageCap index ∧ getOnePageCap index ≤ maxCap) :
    ∃ rest sizes, pageSizes (soundRemedyPolicy maxCap getOnePageCap) nonDup = some sizes ∧
      (2 ≤ maxCap → sizes = (SoundRemedy.choosePageCap maxCap getOnePageCap
        ⟨nonDup, false, 0, 0⟩).takePage.curPageCap :: rest) ∧
      sizes.sum = nonDup ∧ (∀ size ∈ sizes, size ≤ maxCap) ∧
      (maxCap / 2 ≤ nonDup → ∀ size ∈ sizes, maxCap / 2 ≤ size) := by
  have started := @soundRemedy_init maxCap nonDup getOnePageCap
    (fun index => (inRange index).2) room
  rcases Nat.lt_or_ge maxCap 2 with one | several
  · obtain rfl : maxCap = 1 := by omega
    have follows := @soundRemedy_follows_ones getOnePageCap
      (SoundRemedy.choosePageCap 1 getOnePageCap ⟨nonDup, false, 0, 0⟩).takePage
      (fun index => (inRange index).2) (nonDup - 1)
    have bounds := (inRange 0).2
    have plan : Follows (soundRemedyPolicy 1 getOnePageCap)
        (SoundRemedy.choosePageCap 1 getOnePageCap ⟨nonDup, false, 0, 0⟩).takePage
        (List.replicate nonDup 1) := by
      rw [Nat.sub_add_cancel some_entry] at follows
      rcases @choosePageCap_cases 1 getOnePageCap ⟨nonDup, false, 0, 0⟩ with
        ⟨single, chosen⟩ | ⟨more, two, chosen⟩ | ⟨many, chosen⟩ <;>
        rw [chosen] at follows ⊢ <;> simp only at *
      · exact follows (by omega) (by omega) (by omega)
      · exact follows (by omega) (by omega) (by omega)
      · exact follows bounds (by omega) (fun late => nomatch late)
    refine ⟨[], List.replicate nonDup 1, pageSizes_of_follows started plan ?_ (by simp),
      fun several => absurd several (by decide), by simp, ?_,
      fun _ size _ => Nat.zero_le size⟩
    · intro size member
      rw [List.eq_of_mem_replicate member]
      exact Nat.one_pos
    · intro size member
      rw [List.eq_of_mem_replicate member]
  · obtain ⟨rest, plan, follows, first, total, sizes, halves⟩ :=
      @soundRemedy_follows maxCap getOnePageCap ⟨nonDup, false, 0, 0⟩ several inRange
        some_entry rfl
    exact ⟨rest, plan, pageSizes_of_follows started follows
      (fun size member => (sizes size member).1) total, fun _ => first, total,
      fun size member => (sizes size member).2, halves⟩

/-- Whatever sizes are drawn, no assertion fails and the pages are at least half
full. -/
theorem soundRemedy_halfFull (maxCap nonDup : Nat) (getOnePageCap : Nat → Nat)
    (some_entry : 1 ≤ nonDup) (room : 1 ≤ maxCap)
    (inRange : ∀ index, maxCap / 2 ≤ getOnePageCap index ∧ getOnePageCap index ≤ maxCap) :
    ∃ sizes, pageSizes (soundRemedyPolicy maxCap getOnePageCap) nonDup = some sizes ∧
      sizes.sum = nonDup ∧ (∀ size ∈ sizes, size ≤ maxCap) ∧
      (maxCap / 2 ≤ nonDup → ∀ size ∈ sizes, maxCap / 2 ≤ size) := by
  obtain ⟨-, sizes, chosen, -, total, bounds, halves⟩ :=
    soundRemedy_plan some_entry room inRange
  exact ⟨sizes, chosen, total, bounds, halves⟩

/-- Ten entries in pages of at most four, all draws being two. -/
theorem soundRemedy_halfFull_ten :
    ∃ sizes, pageSizes (soundRemedyPolicy 4 (fun _ => 2)) 10 = some sizes ∧
      sizes.sum = 10 ∧ (∀ size ∈ sizes, size ≤ 4) ∧
      (4 / 2 ≤ 10 → ∀ size ∈ sizes, 4 / 2 ≤ size) :=
  soundRemedy_halfFull 4 10 (fun _ => 2) (by decide) (by decide) (fun _ => by decide)

end

end AhaTree
