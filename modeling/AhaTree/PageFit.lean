import AhaTree.SplitPolicy
import Mathlib.Algebra.Order.BigOperators.Group.List

/-!
# Page sizes and the space of a page

The policies derive the capacity of a page from the size of a pointer to its
header, while the page counts the header itself and keeps one more byte free.
For some sizes of an entry a page is planned with more entries than it takes.
-/

namespace AhaTree

/-! ## What a fresh page takes -/

/-- How many entries of these sizes a fresh page takes. -/
def freshCap (keySize valueSize : Nat) : Nat :=
  (pageSize - pgHdSize - 1) / (keySize + valueSize + 3 * itemIdSize)

/-- All keys have one size, and so have all values; a deletion may have an empty
value instead. -/
def FixedSizes (keySize valueSize : Nat) (stream : List Entry) : Prop :=
  ∀ entry ∈ stream, entry.keySize = keySize ∧ (entry.value.length = valueSize ∨
    entry.key.type = .kTypeDeletion ∧ entry.value = [])

/-- `Init` and the loop of `WriteToPage` come to an end: no division by zero, no
failed assertion, and no page rejects an entry. -/
def WritesPages (getPageSplitPolicy : Nat → Nat → PageSplitPolicy) (stream : List Entry) :
    Prop :=
  let (nonDup, keySize, valSize) := countNonDuplicates stream
  let policy := getPageSplitPolicy keySize valSize
  ((policy.init nonDup).bind (fun state =>
    writeEntries policy state [] (liveEntries stream))).isSome

/-- The loop behind the assertion that a key and a value have a size. -/
theorem writeToPage_isSome_iff {getPageSplitPolicy : Nat → Nat → PageSplitPolicy}
    {stream : List Entry} (key : 0 < (countNonDuplicates stream).2.1)
    (value : 0 < (countNonDuplicates stream).2.2) :
    (writeToPage getPageSplitPolicy stream).isSome ↔
      WritesPages getPageSplitPolicy stream := by
  have sized : ¬ ((countNonDuplicates stream).2.1 = 0 ∨
      (countNonDuplicates stream).2.2 = 0) := by omega
  rw [writeToPage]
  exact iff_of_eq (congrArg (fun result => Option.isSome result = true) (if_neg sized))

section

variable {keySize valueSize : Nat}

theorem freshCap_le_pageCap : freshCap keySize valueSize ≤ pageCap keySize valueSize := by
  refine Nat.div_le_div_right ?_
  simp only [pageSize, pgHdSize]
  omega

/-- A page of entries of one size takes one more as long as it stays below the
bound. -/
theorem pageAppendLeafEntry_isSome_iff {page : List Entry} {entry : Entry}
    (same : ∀ other ∈ entry :: page,
      other.leafEntrySize = keySize + valueSize + 3 * itemIdSize) :
    (pageAppendLeafEntry page entry).isSome ↔
      page.length + 1 ≤ freshCap keySize valueSize := by
  have used : (page.map Entry.leafEntrySize).sum =
      page.length * (keySize + valueSize + 3 * itemIdSize) := by
    rw [List.map_congr_left (fun other member => same other (List.mem_cons_of_mem _ member)),
      List.map_const', List.sum_replicate, smul_eq_mul]
  have size := same entry List.mem_cons_self
  have free : pageGetFreeSpace page ≤ entry.leafEntrySize ↔
      ¬ (page.length * (keySize + valueSize + 3 * itemIdSize) +
        (keySize + valueSize + 3 * itemIdSize) ≤ pageSize - pgHdSize - 1) := by
    rw [pageGetFreeSpace, used, size]
    generalize page.length * (keySize + valueSize + 3 * itemIdSize) = taken
    by_cases little : pageSize - pgHdSize - taken < itemIdSize
    · rw [if_pos little]
      simp only [pageSize, pgHdSize, itemIdSize] at little ⊢
      omega
    · rw [if_neg little]
      simp only [pageSize, pgHdSize, itemIdSize] at little ⊢
      omega
  rw [freshCap, Nat.le_div_iff_mul_le (by simp only [itemIdSize]; omega), Nat.add_mul,
    Nat.one_mul, pageAppendLeafEntry]
  by_cases rejects : pageGetFreeSpace page ≤ entry.leafEntrySize
  · rw [if_pos rejects]
    simpa using free.mp rejects
  · rw [if_neg rejects]
    simpa using not_not.mp (free.not.mp rejects)

/-! ## The loop over the entries -/

variable {policy : PageSplitPolicy}

/-- A page that was begun is in the result, at least as large. -/
theorem splitLoop_keeps {left size : Nat} {state : policy.State} {sizes result : List Nat}
    (split : splitLoop policy left state sizes = some result) (member : size ∈ sizes) :
    ∃ final ∈ result, size ≤ final := by
  induction left generalizing state sizes size with
  | zero =>
      rw [splitLoop] at split
      obtain rfl := Option.some.inj split
      exact ⟨size, List.mem_reverse.mpr member, le_rfl⟩
  | succ left ih =>
      cases sizes with
      | nil => cases member
      | cons first sizes =>
          rw [splitLoop] at split
          obtain ⟨⟨allocates, next⟩, -, later⟩ := Option.bind_eq_some_iff.mp split
          cases allocates with
          | true => exact ih later (List.mem_cons_of_mem _ member)
          | false =>
              rcases List.mem_cons.mp member with rfl | older
              · obtain ⟨final, isFinal, above⟩ := ih later List.mem_cons_self
                exact ⟨final, isFinal, by omega⟩
              · exact ih later (List.mem_cons_of_mem _ older)

/-- The entries are written if and only if every planned page takes its entries. -/
theorem writeEntries_isSome_iff {state : policy.State} {pages : List (List Entry)}
    {entries : List Entry}
    (same : ∀ entry ∈ pages.flatten ++ entries,
      entry.leafEntrySize = keySize + valueSize + 3 * itemIdSize)
    (fits : ∀ page ∈ pages, page.length ≤ freshCap keySize valueSize) :
    (writeEntries policy state pages entries).isSome ↔
      ∃ sizes, splitLoop policy entries.length state (pages.map List.length) = some sizes ∧
        ∀ size ∈ sizes, size ≤ freshCap keySize valueSize := by
  induction entries generalizing state pages with
  | nil =>
      have lengths : (pages.map List.length).reverse = pages.reverse.map List.length :=
        List.map_reverse.symm
      have written : writeEntries policy state pages [] = some pages.reverse := by
        cases pages <;> rfl
      have split : splitLoop policy 0 state (pages.map List.length) =
          some (pages.reverse.map List.length) := by
        rw [splitLoop, lengths]
      rw [written, List.length_nil, split]
      refine iff_of_true rfl ⟨_, rfl, ?_⟩
      intro size member
      obtain ⟨page, isPage, rfl⟩ := List.mem_map.mp member
      exact fits page (List.mem_reverse.mp isPage)
  | cons entry entries ih =>
      -- the entry goes to a page, fresh or open, in front of closed ones
      have step : ∀ (page : List Entry) (closed : List (List Entry)) (next : policy.State),
          (∀ other ∈ (page :: closed).flatten ++ entry :: entries,
            other.leafEntrySize = keySize + valueSize + 3 * itemIdSize) →
          (∀ other ∈ closed, other.length ≤ freshCap keySize valueSize) →
          (((pageAppendLeafEntry page entry).bind (fun longer =>
              writeEntries policy next (longer :: closed) entries)).isSome ↔
            ∃ sizes, splitLoop policy entries.length next
                ((page.length + 1) :: closed.map List.length) = some sizes ∧
              ∀ size ∈ sizes, size ≤ freshCap keySize valueSize) := by
        intro page closed next sameSize below
        have accepts := @pageAppendLeafEntry_isSome_iff keySize valueSize page entry
          (fun other member => sameSize other (by
            rcases List.mem_cons.mp member with rfl | inPage <;> simp [*]))
        cases appended : pageAppendLeafEntry page entry with
        | none =>
            rw [appended] at accepts
            simp only [Option.bind_none, Option.isSome_none, Bool.false_eq_true, false_iff]
            rintro ⟨sizes, split, bounded⟩
            obtain ⟨final, isFinal, above⟩ := splitLoop_keeps split List.mem_cons_self
            exact absurd (accepts.mpr (above.trans (bounded final isFinal))) (by simp)
        | some longer =>
            rw [appended] at accepts
            obtain rfl := pageAppendLeafEntry_eq appended
            have room : page.length + 1 ≤ freshCap keySize valueSize := accepts.mp rfl
            rw [Option.bind_some, ih (by
              intro other member
              exact sameSize other (by simp at member ⊢; grind)) (by
              intro other member
              rcases List.mem_cons.mp member with rfl | older
              · simpa using room
              · exact below other older), List.map_cons, List.length_append,
              List.length_singleton]
      cases pages with
      | nil => exact step [] [] state same (fun _ member => absurd member List.not_mem_nil)
      | cons page pages =>
          rw [writeEntries, List.length_cons, List.map_cons, splitLoop]
          cases asked : policy.shouldAllocPage page.length state with
          | none => simp
          | some answer =>
              obtain ⟨allocates, next⟩ := answer
              cases allocates with
              | true => exact step [] (page :: pages) next same fits
              | false =>
                  exact step page pages next same
                    (fun other older => fits other (List.mem_cons_of_mem _ older))

/-! ## The sizes that are counted -/

variable {stream : List Entry}

theorem mem_nonDuplicates {current : Option Slice} {last : Nat} {entry : Entry}
    (member : entry ∈ nonDuplicates current last stream) :
    entry ∈ stream ∧ entry.IsValue := by
  induction stream generalizing current last with
  | nil => cases member
  | cons first stream ih =>
      simp only [nonDuplicates] at member
      generalize (if current = some first.userKey then last else kMaxSequenceNumber) = newest
        at member
      split at member
      · exact (ih member).imp_left (List.mem_cons_of_mem _)
      · split at member
        · exact (ih member).imp_left (List.mem_cons_of_mem _)
        · rename_i kind
          rcases List.mem_cons.mp member with rfl | later
          · exact ⟨List.mem_cons_self, kind⟩
          · exact (ih later).imp_left (List.mem_cons_of_mem _)

/-- A size that is not zero and is met is the first one. -/
theorem firstSize_eq {sizes : List Nat} {size : Nat} (met : size ∈ sizes)
    (only : ∀ other ∈ sizes, other = size ∨ other = 0) : firstSize sizes = size := by
  rw [firstSize]
  cases found : sizes.find? (fun size => size != 0) with
  | none =>
      have zero := List.find?_eq_none.mp found size met
      simp only [bne_iff_ne, ne_eq, not_not] at zero
      exact zero.symm
  | some first =>
      have member := List.mem_of_find?_eq_some found
      have filled := List.find?_some found
      rcases only first member with same | zero
      · exact same
      · simp [zero] at filled

/-- A stream with something to write is counted with its fixed sizes. -/
theorem countNonDuplicates_eq (fixed : FixedSizes keySize valueSize stream)
    (filled : 0 < (liveEntries stream).length) :
    countNonDuplicates stream = ((liveEntries stream).length, keySize, valueSize) := by
  obtain ⟨entry, isLive⟩ := List.exists_mem_of_length_pos filled
  obtain ⟨member, isValue⟩ := mem_nonDuplicates isLive
  have keys : firstSize (stream.map Entry.keySize) = keySize := by
    refine firstSize_eq (List.mem_map.mpr ⟨entry, member, (fixed entry member).1⟩) ?_
    intro other isOther
    obtain ⟨from', inStream, rfl⟩ := List.mem_map.mp isOther
    exact .inl (fixed from' inStream).1
  have values : firstSize (stream.map (fun entry => entry.value.length)) = valueSize := by
    refine firstSize_eq (List.mem_map.mpr ⟨entry, member, ?_⟩) ?_
    · rcases (fixed entry member).2 with same | ⟨deleted, -⟩
      · exact same
      · rw [Entry.IsValue, deleted] at isValue
        cases isValue
    · intro other isOther
      obtain ⟨from', inStream, rfl⟩ := List.mem_map.mp isOther
      rcases (fixed from' inStream).2 with same | ⟨-, none⟩
      · exact .inl same
      · exact .inr (by rw [none]; rfl)
  rw [countNonDuplicates, keys, values]

/-- Writing a stream of fixed sizes depends on the planned page sizes alone. -/
theorem writesPages_iff_sizes {getPageSplitPolicy : Nat → Nat → PageSplitPolicy}
    (fixed : FixedSizes keySize valueSize stream)
    (filled : 0 < (liveEntries stream).length) :
    WritesPages getPageSplitPolicy stream ↔
      ∃ sizes, pageSizes (getPageSplitPolicy keySize valueSize)
          (liveEntries stream).length = some sizes ∧
        ∀ size ∈ sizes, size ≤ freshCap keySize valueSize := by
  rw [WritesPages, countNonDuplicates_eq fixed filled, pageSizes]
  simp only
  cases started : (getPageSplitPolicy keySize valueSize).init (liveEntries stream).length with
  | none => simp
  | some state =>
      rw [Option.bind_some, Option.bind_some]
      refine writeEntries_isSome_iff ?_ (fun _ member => absurd member List.not_mem_nil)
      intro entry member
      have live : entry ∈ liveEntries stream := by simpa using member
      obtain ⟨inStream, isValue⟩ := mem_nonDuplicates live
      obtain ⟨key, same | ⟨deleted, -⟩⟩ := fixed entry inStream
      · rw [Entry.leafEntrySize, key, same]
      · rw [Entry.IsValue, deleted] at isValue
        cases isValue

/-! ## When a page overflows -/

theorem evenSplit_writesPages_iff (fixed : FixedSizes keySize valueSize stream)
    (fits : 0 < freshCap keySize valueSize) :
    WritesPages evenSplitPolicy stream ↔
      0 < (liveEntries stream).length ∧
        (liveEntries stream).length ⌈/⌉
          ((liveEntries stream).length ⌈/⌉ pageCap keySize valueSize) ≤
          freshCap keySize valueSize := by
  have room : 0 < pageCap keySize valueSize := fits.trans_le freshCap_le_pageCap
  rcases Nat.eq_zero_or_pos (liveEntries stream).length with none | filled
  · have fails : ∀ key value, (evenSplitPolicy key value).init 0 = Option.none := by
      intro key value
      simp [evenSplitPolicy]
    have aborts : ¬ WritesPages evenSplitPolicy stream := by
      rw [WritesPages, countNonDuplicates, none]
      simp [fails]
    exact iff_of_false aborts (fun claim => absurd claim.1 (by omega))
  · rw [writesPages_iff_sizes fixed filled, evenSplit_plan filled room]
    obtain ⟨-, -, -, tight, -, -⟩ := evenSplit_counts filled room rfl rfl
    constructor
    · rintro ⟨sizes, planned, bounded⟩
      obtain rfl := Option.some.inj planned
      refine ⟨filled, bounded _ (List.mem_append_left _ ?_)⟩
      rw [List.mem_replicate]
      exact ⟨by omega, rfl⟩
    · rintro ⟨-, bounded⟩
      refine ⟨_, rfl, ?_⟩
      intro size member
      rcases mem_evenSizes member with rfl | ⟨rfl, -⟩ <;> omega

/-- The draws of `GetOnePageCap` lie between half a page and a page. -/
def DrawsInRange (maxCap : Nat) (getOnePageCap : Nat → Nat) : Prop :=
  ∀ index, maxCap / 2 ≤ getOnePageCap index ∧ getOnePageCap index ≤ maxCap

theorem soundRemedy_writesPages_iff (fixed : FixedSizes keySize valueSize stream)
    (fits : 0 < freshCap keySize valueSize) :
    (∀ getOnePageCap, DrawsInRange (pageCap keySize valueSize) getOnePageCap →
        WritesPages (soundRemedySplitPolicy getOnePageCap) stream) ↔
      freshCap keySize valueSize = pageCap keySize valueSize ∨
      (liveEntries stream).length ≤ freshCap keySize valueSize ∨
      (pageCap keySize valueSize < (liveEntries stream).length ∧
        (liveEntries stream).length ≤ (3 * pageCap keySize valueSize + 1) / 2 ∧
        ((liveEntries stream).length + 1) / 2 ≤ freshCap keySize valueSize) := by
  have below := @freshCap_le_pageCap keySize valueSize
  rcases Nat.eq_zero_or_pos (liveEntries stream).length with none | filled
  · refine iff_of_true ?_ (.inr (.inl (by omega)))
    intro getOnePageCap _
    have empty : liveEntries stream = [] := List.length_eq_zero_iff.mp none
    rw [WritesPages, countNonDuplicates, none, empty]
    simp [soundRemedySplitPolicy, soundRemedyPolicy, SoundRemedy.choosePageCap, writeEntries]
  · constructor
    · intro writes
      by_contra overflows
      simp only [not_or, not_and, not_le] at overflows
      obtain ⟨different, many, halves⟩ := overflows
      have inRange : DrawsInRange (pageCap keySize valueSize)
          (fun _ => pageCap keySize valueSize) := fun _ => ⟨Nat.div_le_self _ _, le_rfl⟩
      obtain ⟨sizes, planned, bounded⟩ :=
        (writesPages_iff_sizes fixed filled).mp (writes _ inRange)
      obtain ⟨rest, plan, isPlan, first, -⟩ :=
        soundRemedy_plan filled (by omega) inRange
      obtain rfl : plan = sizes := Option.some.inj (isPlan.symm.trans planned)
      have head := bounded _ (first (by omega) ▸ List.mem_cons_self)
      rcases @choosePageCap_cases (pageCap keySize valueSize)
          (fun _ => pageCap keySize valueSize) ⟨(liveEntries stream).length, false, 0, 0⟩ with
        ⟨single, chosen⟩ | ⟨more, two, chosen⟩ | ⟨many', chosen⟩ <;> rw [chosen] at head
      · exact absurd head many.not_ge
      · exact absurd head (halves more two).not_ge
      · exact different (le_antisymm below head)
    · intro condition getOnePageCap inRange
      obtain ⟨rest, plan, isPlan, first, total, bounds, -⟩ :=
        soundRemedy_plan filled (fits.trans_le below) inRange
      refine (writesPages_iff_sizes fixed filled).mpr ⟨plan, isPlan, ?_⟩
      intro size member
      rcases condition with same | few | ⟨more, two, halves⟩
      · exact (bounds size member).trans same.ge
      · exact ((List.single_le_sum (fun _ _ => Nat.zero_le _) _ member).trans total.le).trans few
      · rcases Nat.lt_or_ge (pageCap keySize valueSize) 2 with one | several
        · exact (bounds size member).trans (by omega)
        · have isFirst : (SoundRemedy.choosePageCap (pageCap keySize valueSize) getOnePageCap
              ⟨(liveEntries stream).length, false, 0, 0⟩).takePage.curPageCap =
                ((liveEntries stream).length + 1) / 2 := by
            rcases @choosePageCap_cases (pageCap keySize valueSize) getOnePageCap
                ⟨(liveEntries stream).length, false, 0, 0⟩ with
              ⟨single, -⟩ | ⟨-, -, chosen⟩ | ⟨beyond, -⟩
            · exact absurd single more.not_ge
            · rw [chosen]
            · exact absurd two beyond.not_ge
          rw [first several, isFirst] at member total
          rw [List.sum_cons] at total
          rcases List.mem_cons.mp member with rfl | later
          · exact halves
          · have part := List.single_le_sum (fun _ _ => Nat.zero_le _) _ later
            omega

/-- A stream of entries of fixed sizes is written without an overflowing page and
without a division by zero under these conditions on its number of live entries. -/
theorem writesPages_iff (keySize valueSize : Nat) (stream : List Entry)
    (fixed : FixedSizes keySize valueSize stream) (fits : 0 < freshCap keySize valueSize) :
    (WritesPages evenSplitPolicy stream ↔
      0 < (liveEntries stream).length ∧
        (liveEntries stream).length ⌈/⌉
          ((liveEntries stream).length ⌈/⌉ pageCap keySize valueSize) ≤
          freshCap keySize valueSize) ∧
    ((∀ getOnePageCap, DrawsInRange (pageCap keySize valueSize) getOnePageCap →
        WritesPages (soundRemedySplitPolicy getOnePageCap) stream) ↔
      freshCap keySize valueSize = pageCap keySize valueSize ∨
      (liveEntries stream).length ≤ freshCap keySize valueSize ∨
      (pageCap keySize valueSize < (liveEntries stream).length ∧
        (liveEntries stream).length ≤ (3 * pageCap keySize valueSize + 1) / 2 ∧
        ((liveEntries stream).length + 1) / 2 ≤ freshCap keySize valueSize)) :=
  ⟨evenSplit_writesPages_iff fixed fits, soundRemedy_writesPages_iff fixed fits⟩

end

/-! ## Three entries that do not fit -/

/-- An entry of which a page is planned with three, but takes two. -/
def thirdPageEntry (key : Fin 256) : Entry :=
  ⟨⟨[key], 1, .kTypeValue⟩, List.replicate 2707 0⟩

theorem thirdPageEntry_fixed (keys : List (Fin 256)) :
    FixedSizes 9 2707 (keys.map thirdPageEntry) := by
  intro entry member
  obtain ⟨key, -, rfl⟩ := List.mem_map.mp member
  exact ⟨rfl, .inl List.length_replicate⟩

/-- Two of these entries are written. -/
theorem writesPages_two :
    WritesPages evenSplitPolicy ([1, 2].map thirdPageEntry) ∧
      ∀ getOnePageCap, DrawsInRange (pageCap 9 2707) getOnePageCap →
        WritesPages (soundRemedySplitPolicy getOnePageCap) ([1, 2].map thirdPageEntry) := by
  obtain ⟨even, random⟩ := writesPages_iff 9 2707 ([1, 2].map thirdPageEntry)
    (thirdPageEntry_fixed _) (by decide)
  exact ⟨even.mpr (by decide), random.mpr (.inr (.inl (by decide)))⟩

/-- The third one does not fit, and with no entry at all the even policy divides
by zero. -/
theorem not_writesPages_three :
    (FixedSizes 9 2707 ([1, 2, 3].map thirdPageEntry) ∧ 0 < freshCap 9 2707) ∧
      ¬ WritesPages evenSplitPolicy ([1, 2, 3].map thirdPageEntry) ∧
      (¬ ∀ getOnePageCap, DrawsInRange (pageCap 9 2707) getOnePageCap →
        WritesPages (soundRemedySplitPolicy getOnePageCap) ([1, 2, 3].map thirdPageEntry)) ∧
      ¬ WritesPages evenSplitPolicy [⟨⟨[1], 1, .kTypeDeletion⟩, []⟩] := by
  have fixed := thirdPageEntry_fixed [1, 2, 3]
  have room : 0 < freshCap 9 2707 := by decide
  refine ⟨⟨fixed, room⟩, ?_, ?_, ?_⟩
  · rw [evenSplit_writesPages_iff fixed room]
    decide
  · rw [soundRemedy_writesPages_iff fixed room]
    decide
  · have deleted : FixedSizes 9 2707 [⟨⟨[1], 1, .kTypeDeletion⟩, []⟩] := by
      intro entry member
      rw [List.mem_singleton.mp member]
      exact ⟨rfl, .inr ⟨rfl, rfl⟩⟩
    rw [evenSplit_writesPages_iff deleted room]
    decide

end AhaTree
