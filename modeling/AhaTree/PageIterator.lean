import AhaTree.TreePage
import Mathlib.Data.List.TakeWhile

/-!
# The iterator over leaf pages

A scan chains all leaf pages it meets into one `PageIterator`.  Its position is
a page and an offset on that page; `Seek` looks at the first page only, and
`Next` steps to the following page without looking whether that page is empty.
-/

namespace AhaTree

/-- The entries of a leaf page: encoded internal keys with their values. -/
abbrev LeafItems := List (Slice × Slice)

def leafKeys (items : LeafItems) : List Slice :=
  items.map Prod.fst

@[simp] theorem leafKeys_length (items : LeafItems) :
    (leafKeys items).length = items.length := by
  simp [leafKeys]

/-- `PageReadValueAtOffset`: an empty slice past the last entry. -/
def pageReadValueAtOffset (items : LeafItems) (offset : Nat) : Slice :=
  (items.map Prod.snd)[offset]?.getD []

/-- The fields of a `PageIterator` that its methods depend on.  `pages` has the
contents of the pages of `page_ids_`. -/
structure PageIterator where
  pages : List LeafItems
  vecIndex : Nat
  off : Nat
  valid : Bool
  deriving DecidableEq, Repr

namespace PageIterator

/-- The page that is pinned. -/
def page (iterator : PageIterator) : LeafItems :=
  iterator.pages[iterator.vecIndex]?.getD []

def next (iterator : PageIterator) : PageIterator :=
  let moved := { iterator with
    off := iterator.off + 1
    valid := decide (iterator.off + 1 < iterator.page.length) }
  if !moved.valid && decide (moved.vecIndex + 1 < moved.pages.length) then
    { moved with vecIndex := moved.vecIndex + 1, off := 0, valid := true }
  else moved

def seek (iterator : PageIterator) (key : Slice) : PageIterator :=
  let first := { iterator with vecIndex := 0 }
  if first.page.length = 0 then { first with valid := false }
  else
    let off := pageFindOffsetBol (leafKeys first.page) key
    if off = first.page.length then { first with off := off, valid := false }
    else { first with off := off, valid := true }

def seekToFirst (iterator : PageIterator) : PageIterator :=
  let first := { iterator with vecIndex := 0 }
  if first.page.length = 0 then { first with valid := false }.next
  else { first with off := 0, valid := true }

def key (iterator : PageIterator) : Slice :=
  pageReadPivotAtOffset (leafKeys iterator.page) iterator.off

def value (iterator : PageIterator) : Slice :=
  pageReadValueAtOffset iterator.page iterator.off

/-- What a caller reads: an entry while the iterator is valid. -/
def entry (iterator : PageIterator) : Option (Slice × Slice) :=
  if iterator.valid then some (iterator.key, iterator.value) else none

/-- The iterator is valid on each of the entries in turn, and invalid after the
last one. -/
def Enumerates (iterator : PageIterator) : LeafItems → Prop
  | [] => iterator.entry = none
  | item :: items => iterator.entry = some item ∧ iterator.next.Enumerates items

/-- The states of an iterator over `pages` that has been positioned, and moved
on only while it was valid. -/
inductive Positioned (pages : List LeafItems) : PageIterator → Prop
  | seek (iterator : PageIterator) (key : Slice) :
      iterator.pages = pages → Positioned pages (iterator.seek key)
  | seekToFirst (iterator : PageIterator) :
      iterator.pages = pages → Positioned pages iterator.seekToFirst
  | next {iterator : PageIterator} :
      Positioned pages iterator → iterator.valid = true →
      Positioned pages iterator.next

end PageIterator

/-- A leaf page with keys of one length and ascending internal keys. -/
structure LeafPage (items : LeafItems) (width : Nat) : Prop where
  fixedLength : ∀ item ∈ items, item.1.length = width + 8
  increasing : (leafKeys items).Pairwise
    (fun front behind => compareInternalKey front behind = .lt)

/-- Leaf pages in key order: the user keys of a page lie below those of the
pages behind it. -/
structure LeafPages where
  pages : List LeafItems
  width : Nat
  nonempty : pages ≠ []
  leaf : ∀ items ∈ pages, LeafPage items width
  ascending : pages.Pairwise (fun front behind =>
    ∀ left ∈ front, ∀ right ∈ behind,
      extractUserKey left.1 < extractUserKey right.1)

/-- The entries whose user key is below that of the target. -/
def belowTarget (key : Slice) (item : Slice × Slice) : Bool :=
  decide (extractUserKey item.1 < extractUserKey key)

/-- A page iterator is the iterator over the concatenation of its pages, as far
as `SeekToFirst` and a `Seek` to `key` go. -/
structure IteratesPages (pages : List LeafItems) (key : Slice) : Prop where
  fromFirst : ∀ iterator : PageIterator, iterator.pages = pages →
    iterator.seekToFirst.Enumerates pages.flatten
  fromKey : ∀ iterator : PageIterator, iterator.pages = pages →
    (iterator.seek key).Enumerates (pages.flatten.dropWhile (belowTarget key))
  stored : ∀ iterator, PageIterator.Positioned pages iterator →
    iterator.valid = true → (iterator.key, iterator.value) ∈ pages.flatten

/-- The first page has an entry for the target, or no page has. -/
def FirstPageAnswers (pages : List LeafItems) (key : Slice) : Prop :=
  (∃ items ∈ pages.head?, ∃ item ∈ items,
      extractUserKey key ≤ extractUserKey item.1) ∨
    ∀ item ∈ pages.flatten, extractUserKey item.1 < extractUserKey key

/-- The page search stops on a version of the target's user key that has
another version of it in front. -/
def StopsBehindVersion (items : LeafItems) (key : Slice) : Prop :=
  ∃ offset front found, pageBinSearch (leafKeys items) key = offset + 1 ∧
    items[offset]? = some front ∧ items[offset + 1]? = some found ∧
    extractUserKey front.1 = extractUserKey key ∧
    extractUserKey found.1 = extractUserKey key

/-! ## Enumeration -/

namespace PageIterator

@[simp] theorem next_pages (iterator : PageIterator) :
    iterator.next.pages = iterator.pages := by
  simp only [next]
  split
  · rfl
  · rfl

@[simp] theorem seek_pages (iterator : PageIterator) (key : Slice) :
    (iterator.seek key).pages = iterator.pages := by
  simp only [seek]
  split_ifs
  · rfl
  · rfl
  · rfl

/-- The entries from the position on. -/
def remaining (iterator : PageIterator) : LeafItems :=
  iterator.page.drop iterator.off ++
    (iterator.pages.drop (iterator.vecIndex + 1)).flatten

theorem page_eq {iterator : PageIterator}
    (inside : iterator.vecIndex < iterator.pages.length) :
    iterator.page = iterator.pages[iterator.vecIndex] := by
  simp [page, inside]

theorem vecIndex_lt_of_off {iterator : PageIterator}
    (inside : iterator.off < iterator.page.length) :
    iterator.vecIndex < iterator.pages.length := by
  by_contra outside
  simp [page, List.getElem?_eq_none (Nat.le_of_not_lt outside)] at inside

/-- Inside a page the iterator reads an entry of that page. -/
theorem entry_inside {iterator : PageIterator} (valid : iterator.valid = true)
    (inside : iterator.off < iterator.page.length) :
    iterator.entry = some iterator.page[iterator.off] := by
  simp [entry, valid, key, value, pageReadPivotAtOffset, pageReadValueAtOffset,
    leafKeys, inside]

/-- Past the end of a page a valid iterator reads an empty key. -/
theorem entry_past {iterator : PageIterator} (valid : iterator.valid = true)
    (past : iterator.page.length ≤ iterator.off) :
    iterator.entry = some ([], []) := by
  simp [entry, valid, key, value, pageReadPivotAtOffset, pageReadValueAtOffset,
    leafKeys, past]

theorem remaining_inside {iterator : PageIterator}
    (inside : iterator.off < iterator.page.length) :
    iterator.remaining = iterator.page[iterator.off] ::
      (iterator.page.drop (iterator.off + 1) ++
        (iterator.pages.drop (iterator.vecIndex + 1)).flatten) := by
  rw [remaining, List.drop_eq_getElem_cons inside, List.cons_append]

theorem next_of_inside {iterator : PageIterator}
    (inside : iterator.off + 1 < iterator.page.length) :
    iterator.next = { iterator with off := iterator.off + 1, valid := true } := by
  simp [next, inside]

theorem next_of_page_end {iterator : PageIterator}
    (ended : iterator.page.length ≤ iterator.off + 1)
    (more : iterator.vecIndex + 1 < iterator.pages.length) :
    iterator.next = { iterator with
      vecIndex := iterator.vecIndex + 1, off := 0, valid := true } := by
  simp [next, Nat.not_lt.mpr ended, more]

theorem next_of_end {iterator : PageIterator}
    (ended : iterator.page.length ≤ iterator.off + 1)
    (last : iterator.pages.length ≤ iterator.vecIndex + 1) :
    iterator.next = { iterator with off := iterator.off + 1, valid := false } := by
  simp [next, Nat.not_lt.mpr ended, Nat.not_lt.mpr last]

/-- No enumeration passes a page without entries: the key read there is not
stored anywhere. -/
theorem not_enumerates_past {iterator : PageIterator} {items : LeafItems}
    (valid : iterator.valid = true)
    (past : iterator.page.length ≤ iterator.off)
    (keysNonempty : ∀ item ∈ items, item.1 ≠ []) :
    ¬ iterator.Enumerates items := by
  have blank := entry_past valid past
  cases items with
  | nil => simp [Enumerates, blank]
  | cons item items =>
      rintro ⟨same, -⟩
      rw [blank] at same
      apply keysNonempty item List.mem_cons_self
      rw [← Option.some.inj same]

theorem enumerates_of_invalid {iterator : PageIterator} {items : LeafItems}
    (invalid : iterator.valid = false) :
    iterator.Enumerates items ↔ items = [] := by
  cases items <;> simp [Enumerates, entry, invalid]

/-- From a position on an entry, the iterator enumerates what is left exactly
when no later page is empty. -/
theorem enumerates_remaining_iff {iterator : PageIterator}
    (valid : iterator.valid = true)
    (inside : iterator.off < iterator.page.length)
    (keysNonempty : ∀ item ∈ iterator.remaining, item.1 ≠ []) :
    iterator.Enumerates iterator.remaining ↔
      [] ∉ iterator.pages.drop (iterator.vecIndex + 1) := by
  generalize left : iterator.remaining = items at keysNonempty ⊢
  induction items generalizing iterator with
  | nil => simp [remaining_inside inside] at left
  | cons item items ih =>
      rw [remaining_inside inside, List.cons.injEq] at left
      obtain ⟨here, rest⟩ := left
      have restNonempty : ∀ item ∈ items, item.1 ≠ [] :=
        fun item member => keysNonempty item (List.mem_cons_of_mem _ member)
      rw [Enumerates, entry_inside valid inside, here]
      simp only [true_and]
      rcases Nat.lt_or_ge (iterator.off + 1) iterator.page.length with more | ended
      · rw [next_of_inside more]
        exact ih rfl more rest restNonempty
      · rw [List.drop_of_length_le ended, List.nil_append] at rest
        rcases Nat.lt_or_ge (iterator.vecIndex + 1) iterator.pages.length with
          another | last
        · rw [next_of_page_end ended another, List.drop_eq_getElem_cons another]
          have nextPage : page { iterator with
              vecIndex := iterator.vecIndex + 1, off := 0, valid := true } =
              iterator.pages[iterator.vecIndex + 1] := by
            simp [page, another]
          by_cases blank : iterator.pages[iterator.vecIndex + 1] = []
          · have stuck := @not_enumerates_past { iterator with
                vecIndex := iterator.vecIndex + 1, off := 0, valid := true } items
              rfl (by simp [nextPage, blank]) restNonempty
            simp [stuck, blank]
          · have nextInside := List.length_pos_iff.mpr blank
            rw [ih rfl (by rw [nextPage]; exact nextInside) ?_ restNonempty]
            · rw [List.mem_cons, not_or, and_iff_right (Ne.symm blank)]
            · rw [remaining, nextPage, List.drop_zero, ← rest,
                List.drop_eq_getElem_cons another, List.flatten_cons]
        · rw [next_of_end ended last, enumerates_of_invalid rfl, ← rest,
            List.drop_of_length_le last]
          simp

theorem seekToFirst_of_nonempty {iterator : PageIterator} {first : LeafItems}
    {pages : List LeafItems} (same : iterator.pages = first :: pages)
    (nonempty : first ≠ []) :
    iterator.seekToFirst = ⟨first :: pages, 0, 0, true⟩ := by
  have positive := List.length_pos_iff.mpr nonempty
  simp [seekToFirst, page, same, nonempty]

theorem seekToFirst_of_empty {iterator : PageIterator} {second : LeafItems}
    {pages : List LeafItems} (same : iterator.pages = [] :: second :: pages) :
    iterator.seekToFirst = ⟨[] :: second :: pages, 1, 0, true⟩ := by
  simp [seekToFirst, page, same, next]

theorem enumerates_seekToFirst_iff {iterator : PageIterator}
    {pages : List LeafItems} (same : iterator.pages = pages)
    (nonempty : pages ≠ [])
    (keysNonempty : ∀ item ∈ pages.flatten, item.1 ≠ []) :
    iterator.seekToFirst.Enumerates pages.flatten ↔ [] ∉ pages.tail := by
  obtain ⟨first, pages, rfl⟩ := List.exists_cons_of_ne_nil nonempty
  by_cases blank : first = []
  · subst blank
    cases pages with
    | nil => simp [seekToFirst, page, same, next, Enumerates, entry]
    | cons second pages =>
        rw [seekToFirst_of_empty same, List.flatten_cons, List.nil_append]
        by_cases secondBlank : second = []
        · subst secondBlank
          have stuck := @not_enumerates_past ⟨[] :: [] :: pages, 1, 0, true⟩
            ([] :: pages).flatten rfl (by simp [page]) (by simpa using keysNonempty)
          simpa using stuck
        · have positive := List.length_pos_iff.mpr secondBlank
          have enumerated := @enumerates_remaining_iff
            ⟨[] :: second :: pages, 1, 0, true⟩ rfl (by simpa [page] using positive)
            (by simpa [remaining, page] using keysNonempty)
          simpa [remaining, page, Ne.symm secondBlank] using enumerated
  · have positive := List.length_pos_iff.mpr blank
    have enumerated := @enumerates_remaining_iff ⟨first :: pages, 0, 0, true⟩ rfl
      (by simpa [page] using positive) (by simpa [remaining, page] using keysNonempty)
    rw [seekToFirst_of_nonempty same blank]
    simpa [remaining, page] using enumerated

end PageIterator

/-! ## Seeking -/

section Search

variable {items : LeafItems} {key : Slice} {width : Nat}

theorem pageReadPivotAtOffset_leafKeys (place : Nat) (item : Slice × Slice)
    (atPlace : items[place]? = some item) :
    pageReadPivotAtOffset (leafKeys items) place = item.1 := by
  simp [pageReadPivotAtOffset, leafKeys, atPlace]

theorem LeafPage.compare_lt (leaf : LeafPage items width)
    {front behind : Nat} {left right : Slice × Slice} (order : front < behind)
    (atFront : items[front]? = some left) (atBehind : items[behind]? = some right) :
    compareInternalKey left.1 right.1 = .lt := by
  obtain ⟨frontInside, rfl⟩ := List.getElem?_eq_some_iff.mp atFront
  obtain ⟨behindInside, rfl⟩ := List.getElem?_eq_some_iff.mp atBehind
  have increasing := List.pairwise_iff_getElem.mp leaf.increasing front behind
    (by simpa using frontInside) (by simpa using behindInside) order
  simpa [leafKeys] using increasing

theorem LeafPage.userKey_le (leaf : LeafPage items width)
    {front behind : Nat} {left right : Slice × Slice} (order : front ≤ behind)
    (atFront : items[front]? = some left) (atBehind : items[behind]? = some right) :
    extractUserKey left.1 ≤ extractUserKey right.1 := by
  rcases Nat.lt_or_eq_of_le order with less | rfl
  · exact extractUserKey_le_of_compare (leaf.compare_lt less atFront atBehind)
  · rw [Option.some.inj (atFront.symm.trans atBehind)]

theorem pageFindOffsetBol_le {items : LeafItems} (nonempty : items ≠ [])
    (key : Slice) : pageFindOffsetBol (leafKeys items) key ≤ items.length := by
  have stopped := (@pageBinSearch_stops (leafKeys items)
    (by simpa [leafKeys] using nonempty) key).inside
  rw [leafKeys_length] at stopped
  simp only [pageFindOffsetBol]
  split <;> omega

/-- What `PageFindOffsetBol` has seen when it answers: it has stepped over an
entry with a smaller user key, or it stays on the entry that the search found. -/
theorem LeafPage.pageFindOffsetBol_stops (leaf : LeafPage items width)
    (fixed : key.length = width + 8) (nonempty : items ≠ []) :
    ∃ offset found, items[offset]? = some found ∧
      pageBinSearch (leafKeys items) key = offset ∧
      ((extractUserKey found.1 < extractUserKey key ∧
          pageFindOffsetBol (leafKeys items) key = offset + 1 ∧
          ∀ next, items[offset + 1]? = some next →
            extractUserKey key ≤ extractUserKey next.1) ∨
        (extractUserKey key ≤ extractUserKey found.1 ∧
          pageFindOffsetBol (leafKeys items) key = offset ∧
          (offset = 0 ∨ extractUserKey found.1 = extractUserKey key))) := by
  obtain ⟨within, notAbove, below⟩ := @pageBinSearch_stops (leafKeys items)
    (by simpa [leafKeys] using nonempty) key
  rw [pageFindOffsetBol]
  generalize pageBinSearch (leafKeys items) key = offset at *
  rw [leafKeys_length] at within below
  have readAt := @pageReadPivotAtOffset_leafKeys items
  have lengthAt : ∀ (place : Nat) (item : Slice × Slice), items[place]? = some item →
      item.1.length = key.length := by
    intro place item atPlace
    rw [fixed]
    exact leaf.fixedLength item (List.mem_of_getElem? atPlace)
  obtain ⟨found, atOffset⟩ : ∃ found, items[offset]? = some found :=
    ⟨_, List.getElem?_eq_getElem within⟩
  rw [readAt offset found atOffset] at notAbove below ⊢
  refine ⟨offset, found, atOffset, rfl, ?_⟩
  by_cases passed : extractUserKey found.1 < extractUserKey key
  · refine .inl ⟨passed, by simp [passed], ?_⟩
    intro next atNext
    have different : found.1 ≠ key := fun same => by simp [same] at passed
    rcases below different with last | ⟨rfl, above⟩ | above
    · have nextInside := (List.getElem?_eq_some_iff.mp atNext).1
      omega
    · rw [readAt 0 found atOffset] at above
      have order := extractUserKey_le_of_le (lengthAt 0 found atOffset).symm above.le
      exact absurd passed (not_lt.mpr order)
    · rw [readAt (offset + 1) next atNext] at above
      exact extractUserKey_le_of_le (lengthAt _ next atNext).symm above.le
  · refine .inr ⟨not_lt.mp passed, by simp [passed], ?_⟩
    refine notAbove.imp_right (fun order => le_antisymm ?_ (not_lt.mp passed))
    exact extractUserKey_le_of_le (lengthAt offset found atOffset) order

/-- Unless the search stops behind another version, `PageFindOffsetBol` cuts the
page at the target. -/
theorem LeafPage.drop_pageFindOffsetBol (leaf : LeafPage items width)
    (fixed : key.length = width + 8) (nonempty : items ≠ [])
    (notBehind : ¬ StopsBehindVersion items key) :
    items.drop (pageFindOffsetBol (leafKeys items) key) =
      items.dropWhile (belowTarget key) := by
  obtain ⟨offset, found, atOffset, searched, stopped⟩ :=
    leaf.pageFindOffsetBol_stops fixed nonempty
  have cutAt : ∀ place,
      (∀ index item, index < place → items[index]? = some item →
        extractUserKey item.1 < extractUserKey key) →
      (∀ item, items[place]? = some item →
        extractUserKey key ≤ extractUserKey item.1) →
      items.drop place = items.dropWhile (belowTarget key) := by
    intro place before behind
    have frontBelow : ∀ item ∈ items.take place, belowTarget key item = true := by
      intro item member
      obtain ⟨index, hit⟩ := List.getElem?_of_mem member
      rw [List.getElem?_take] at hit
      split at hit
      · simpa [belowTarget] using before index item ‹_› hit
      · cases hit
    conv => rhs; rw [← List.take_append_drop place items]
    rw [List.dropWhile_append_of_pos frontBelow, eq_comm, List.dropWhile_eq_self_iff]
    intro dropInside
    have notBelow := behind (items.drop place)[0]
      (by rw [← List.getElem?_eq_getElem dropInside, List.getElem?_drop]; rfl)
    simpa [belowTarget] using notBelow
  rcases stopped with ⟨passed, answer, next⟩ | ⟨reached, answer, started⟩
  · rw [answer]
    refine cutAt (offset + 1) ?_ next
    intro index item before atIndex
    exact (leaf.userKey_le (by omega) atIndex atOffset).trans_lt passed
  · rw [answer]
    refine cutAt offset ?_ ?_
    · intro index item before atIndex
      obtain ⟨previous, rfl⟩ : ∃ previous, offset = previous + 1 :=
        ⟨offset - 1, by omega⟩
      have same := started.resolve_left (by omega)
      have inside := (List.getElem?_eq_some_iff.mp atOffset).1
      obtain ⟨front, atFront⟩ : ∃ front, items[previous]? = some front :=
        ⟨_, List.getElem?_eq_getElem (by omega)⟩
      have frontLe := leaf.userKey_le (by omega) atFront atOffset
      have frontNe : extractUserKey front.1 ≠ extractUserKey key := by
        intro frontSame
        exact notBehind ⟨previous, front, found, searched, atFront, atOffset,
          frontSame, same⟩
      rw [same] at frontLe
      exact (leaf.userKey_le (by omega) atIndex atFront).trans_lt
        (lt_of_le_of_ne frontLe frontNe)
    · intro item isItem
      rw [← Option.some.inj (atOffset.symm.trans isItem)]
      exact reached

/-- Behind another version, the entry it stops on is not the first one that is
left. -/
theorem LeafPage.head?_dropWhile_ne (leaf : LeafPage items width)
    (behind : StopsBehindVersion items key) (others : LeafItems) :
    ((items ++ others).dropWhile (belowTarget key)).head? ≠
      items[pageFindOffsetBol (leafKeys items) key]? := by
  obtain ⟨offset, front, found, searched, atFront, atFound, frontSame, same⟩ := behind
  have stays : pageFindOffsetBol (leafKeys items) key = offset + 1 := by
    rw [pageFindOffsetBol, searched,
      pageReadPivotAtOffset_leafKeys (offset + 1) found atFound, same]
    simp
  rw [stays, atFound]
  -- the version in front is not dropped, so what is left begins before `found`
  have kept : ((items.take (offset + 1)).dropWhile (belowTarget key)) ≠ [] := by
    rw [ne_eq, List.dropWhile_eq_nil_iff]
    intro allBelow
    have member : front ∈ items.take (offset + 1) := by
      apply List.mem_of_getElem? (i := offset)
      rw [List.getElem?_take, if_pos (by omega), atFront]
    have below := allBelow front member
    simp [belowTarget, frontSame] at below
  obtain ⟨head, rest, keptEq⟩ := List.exists_cons_of_ne_nil kept
  have divided : (items ++ others).dropWhile (belowTarget key) =
      head :: (rest ++ (items.drop (offset + 1) ++ others)) := by
    conv => lhs; rw [← List.take_append_drop (offset + 1) items]
    rw [List.append_assoc, List.dropWhile_append, keptEq]
    rfl
  rw [divided, List.head?_cons, ne_eq, Option.some.injEq]
  rintro rfl
  have headMember : head ∈ items.take (offset + 1) := by
    have inside : head ∈ (items.take (offset + 1)).dropWhile (belowTarget key) := by
      rw [keptEq]
      exact List.mem_cons_self
    exact (List.dropWhile_sublist _).subset inside
  obtain ⟨index, hit⟩ := List.getElem?_of_mem headMember
  rw [List.getElem?_take] at hit
  split at hit
  · have less := leaf.compare_lt ‹_› hit atFound
    simp at less
  · cases hit

theorem LeafPage.userKey_le_at_offset (leaf : LeafPage items width)
    (fixed : key.length = width + 8) (nonempty : items ≠ [])
    {item : Slice × Slice}
    (atOffset : items[pageFindOffsetBol (leafKeys items) key]? = some item) :
    extractUserKey key ≤ extractUserKey item.1 := by
  obtain ⟨offset, found, atFound, -, stopped⟩ :=
    leaf.pageFindOffsetBol_stops fixed nonempty
  rcases stopped with ⟨-, answer, next⟩ | ⟨reached, answer, -⟩
  · rw [answer] at atOffset
    exact next item atOffset
  · rw [answer] at atOffset
    rw [← Option.some.inj (atFound.symm.trans atOffset)]
    exact reached

theorem StopsBehindVersion.inside (behind : StopsBehindVersion items key) :
    pageFindOffsetBol (leafKeys items) key < items.length := by
  obtain ⟨offset, front, found, searched, -, atFound, -, same⟩ := behind
  have inside := (List.getElem?_eq_some_iff.mp atFound).1
  rw [pageFindOffsetBol, searched,
    pageReadPivotAtOffset_leafKeys (offset + 1) found atFound, same]
  simpa using inside

end Search

namespace PageIterator

theorem Enumerates.entry_eq {iterator : PageIterator} {items : LeafItems}
    (enumerated : iterator.Enumerates items) : iterator.entry = items.head? := by
  cases items with
  | nil => exact enumerated
  | cons item items => exact enumerated.1

variable {iterator : PageIterator} {first : LeafItems} {others : List LeafItems}
  {key : Slice} {width : Nat}

theorem seek_of_empty (same : iterator.pages = [] :: others) :
    (iterator.seek key).valid = false := by
  simp [seek, page, same]

theorem seek_of_end (same : iterator.pages = first :: others)
    (ended : pageFindOffsetBol (leafKeys first) key = first.length) :
    (iterator.seek key).valid = false := by
  simp only [seek, page, same, List.getElem?_cons_zero, Option.getD_some, ended]
  split <;> rfl

theorem seek_of_inside (same : iterator.pages = first :: others)
    (nonempty : first ≠ [])
    (inside : pageFindOffsetBol (leafKeys first) key < first.length) :
    iterator.seek key =
      ⟨first :: others, 0, pageFindOffsetBol (leafKeys first) key, true⟩ := by
  simp [seek, page, same, nonempty, inside.ne]

/-- What `Seek` does inside the first page. -/
theorem enumerates_seek_inside_iff (leaf : LeafPage first width)
    (fixed : key.length = width + 8) (same : iterator.pages = first :: others)
    (full : [] ∉ others) (nonempty : first ≠ [])
    (keysNonempty : ∀ item ∈ (first :: others).flatten, item.1 ≠ [])
    (inside : pageFindOffsetBol (leafKeys first) key < first.length) :
    (iterator.seek key).Enumerates
        ((first :: others).flatten.dropWhile (belowTarget key)) ↔
      ¬ StopsBehindVersion first key := by
  rw [seek_of_inside same nonempty inside, List.flatten_cons]
  have atOffset : ∀ offset, page ⟨first :: others, 0, offset, true⟩ = first :=
    fun _ => rfl
  constructor
  · intro enumerated behind
    have entryEq := enumerated.entry_eq
    rw [entry_inside rfl inside] at entryEq
    apply leaf.head?_dropWhile_ne behind others.flatten
    rw [← entryEq, List.getElem?_eq_getElem inside]
    rfl
  · intro notBehind
    have cut := leaf.drop_pageFindOffsetBol fixed nonempty notBehind
    have kept : first.dropWhile (belowTarget key) ≠ [] := by
      rw [← cut, ne_eq, List.drop_eq_nil_iff]
      omega
    rw [List.dropWhile_append, if_neg (by simpa using kept), ← cut]
    refine (enumerates_remaining_iff rfl inside ?_).mpr (by simpa using full)
    intro item member
    apply keysNonempty item
    simp only [remaining, atOffset, List.mem_append] at member
    rw [List.flatten_cons, List.mem_append]
    exact member.imp_left List.mem_of_mem_drop

theorem enumerates_seek_iff (leaf : LeafPage first width)
    (fixed : key.length = width + 8) (same : iterator.pages = first :: others)
    (full : [] ∉ others)
    (keysNonempty : ∀ item ∈ (first :: others).flatten, item.1 ≠ []) :
    (iterator.seek key).Enumerates
        ((first :: others).flatten.dropWhile (belowTarget key)) ↔
      FirstPageAnswers (first :: others) key ∧
        ¬ StopsBehindVersion first key := by
  have emptyIff : (first :: others).flatten.dropWhile (belowTarget key) = [] ↔
      ∀ item ∈ (first :: others).flatten,
        extractUserKey item.1 < extractUserKey key := by
    simp [List.dropWhile_eq_nil_iff, belowTarget]
  by_cases blank : first = []
  · subst blank
    rw [enumerates_of_invalid (seek_of_empty same), emptyIff]
    simp [FirstPageAnswers, StopsBehindVersion]
  · rcases Nat.lt_or_ge (pageFindOffsetBol (leafKeys first) key) first.length with
      inside | ended
    · rw [enumerates_seek_inside_iff leaf fixed same full blank keysNonempty inside]
      have answers : FirstPageAnswers (first :: others) key := by
        refine .inl ⟨first, rfl, first[pageFindOffsetBol (leafKeys first) key],
          List.getElem_mem inside, ?_⟩
        exact leaf.userKey_le_at_offset fixed blank (List.getElem?_eq_getElem inside)
      exact (and_iff_right answers).symm
    · have atEnd := le_antisymm (pageFindOffsetBol_le blank key) ended
      have notBehind : ¬ StopsBehindVersion first key :=
        fun behind => absurd behind.inside (Nat.not_lt.mpr ended)
      have firstBelow : ∀ item ∈ first, belowTarget key item = true := by
        have cut := leaf.drop_pageFindOffsetBol fixed blank notBehind
        rw [List.drop_of_length_le ended, eq_comm, List.dropWhile_eq_nil_iff] at cut
        exact cut
      rw [enumerates_of_invalid (seek_of_end same atEnd), emptyIff,
        and_iff_left notBehind, FirstPageAnswers, or_iff_right]
      rintro ⟨items, isFirst, item, member, reached⟩
      obtain rfl : first = items := Option.some.inj isFirst
      have below := firstBelow item member
      simp only [belowTarget, decide_eq_true_eq] at below
      exact absurd below (not_lt.mpr reached)

/-- Without empty pages behind the first one, `Next` ends up on an entry or is
invalid. -/
theorem next_inside (full : [] ∉ iterator.pages.tail) :
    iterator.next.pages = iterator.pages ∧
      (iterator.next.valid = true →
        iterator.next.off < iterator.next.page.length) := by
  rcases Nat.lt_or_ge (iterator.off + 1) iterator.page.length with more | ended
  · rw [next_of_inside more]
    exact ⟨rfl, fun _ => more⟩
  · rcases Nat.lt_or_ge (iterator.vecIndex + 1) iterator.pages.length with
      another | last
    · rw [next_of_page_end ended another]
      refine ⟨rfl, fun _ => ?_⟩
      have behindFirst : iterator.pages[iterator.vecIndex + 1] ∈
          iterator.pages.tail := by
        apply List.mem_of_getElem? (i := iterator.vecIndex)
        rw [List.getElem?_tail, List.getElem?_eq_getElem another]
      have pageNonempty : iterator.pages[iterator.vecIndex + 1] ≠ [] :=
        fun blank => full (blank ▸ behindFirst)
      simpa [page, another, List.length_pos_iff] using pageNonempty
    · rw [next_of_end ended last]
      exact ⟨rfl, fun impossible => by cases impossible⟩

theorem seek_inside (key : Slice) :
    (iterator.seek key).pages = iterator.pages ∧
      ((iterator.seek key).valid = true →
        (iterator.seek key).off < (iterator.seek key).page.length) := by
  simp only [seek]
  split
  · exact ⟨rfl, fun impossible => by cases impossible⟩
  · rename_i nonempty
    split
    · exact ⟨rfl, fun impossible => by cases impossible⟩
    · rename_i notEnd
      refine ⟨rfl, fun _ => lt_of_le_of_ne ?_ notEnd⟩
      exact pageFindOffsetBol_le (by simpa using nonempty) key

theorem seekToFirst_inside (full : [] ∉ iterator.pages.tail) :
    iterator.seekToFirst.pages = iterator.pages ∧
      (iterator.seekToFirst.valid = true →
        iterator.seekToFirst.off < iterator.seekToFirst.page.length) := by
  simp only [seekToFirst]
  split
  · exact @next_inside { iterator with vecIndex := 0, valid := false } full
  · rename_i nonempty
    exact ⟨rfl, fun _ => Nat.pos_of_ne_zero nonempty⟩

/-- Without empty pages behind the first one, a valid iterator stands on an
entry. -/
theorem Positioned.inside {pages : List LeafItems} (full : [] ∉ pages.tail)
    (positioned : Positioned pages iterator) :
    iterator.pages = pages ∧
      (iterator.valid = true → iterator.off < iterator.page.length) := by
  induction positioned with
  | seek iterator key same =>
      rw [← same]
      exact seek_inside key
  | seekToFirst iterator same =>
      rw [← same] at full ⊢
      exact seekToFirst_inside full
  | next _ _ ih =>
      rw [← ih.1] at full ⊢
      exact next_inside full

theorem Positioned.stored {pages : List LeafItems} (full : [] ∉ pages.tail)
    (positioned : Positioned pages iterator) (valid : iterator.valid = true) :
    (iterator.key, iterator.value) ∈ pages.flatten := by
  obtain ⟨same, position⟩ := positioned.inside full
  have inside := position valid
  have found := entry_inside valid inside
  rw [entry, if_pos valid, Option.some.injEq] at found
  have pageInside := vecIndex_lt_of_off inside
  rw [found, ← same, List.mem_flatten]
  refine ⟨iterator.page, ?_, List.getElem_mem inside⟩
  rw [page_eq pageInside]
  exact List.getElem_mem pageInside

end PageIterator

namespace LeafPages

theorem keysNonempty (leaves : LeafPages) :
    ∀ item ∈ leaves.pages.flatten, item.1 ≠ [] := by
  intro item member blank
  obtain ⟨items, isPage, inside⟩ := List.mem_flatten.mp member
  have length := (leaves.leaf items isPage).fixedLength item inside
  simp [blank] at length

/-- A page iterator is the iterator over all its entries exactly when the first
page answers for the target, no later page is empty, and the search of the first
page does not stop behind another version of the target's user key. -/
theorem iteratesPages_iff (leaves : LeafPages) (key : Slice)
    (fixed : key.length = leaves.width + 8) :
    IteratesPages leaves.pages key ↔
      FirstPageAnswers leaves.pages key ∧ [] ∉ leaves.pages.tail ∧
        ∀ first ∈ leaves.pages.head?, ¬ StopsBehindVersion first key := by
  obtain ⟨first, others, split⟩ := List.exists_cons_of_ne_nil leaves.nonempty
  have leaf : LeafPage first leaves.width :=
    leaves.leaf first (by rw [split]; exact List.mem_cons_self)
  have keysNonempty := leaves.keysNonempty
  have enumerated : ∀ iterator : PageIterator, iterator.pages = leaves.pages →
      (iterator.seekToFirst.Enumerates leaves.pages.flatten ↔
        [] ∉ leaves.pages.tail) :=
    fun iterator same => PageIterator.enumerates_seekToFirst_iff same
      leaves.nonempty keysNonempty
  rw [split] at keysNonempty enumerated ⊢
  have sought : ∀ iterator : PageIterator, iterator.pages = first :: others →
      [] ∉ others → ((iterator.seek key).Enumerates
          ((first :: others).flatten.dropWhile (belowTarget key)) ↔
        FirstPageAnswers (first :: others) key ∧ ¬ StopsBehindVersion first key) :=
    fun iterator same full => PageIterator.enumerates_seek_iff leaf fixed same full
      keysNonempty
  constructor
  · intro iterates
    let fresh : PageIterator := ⟨first :: others, 0, 0, false⟩
    have full := (enumerated fresh rfl).mp (iterates.fromFirst fresh rfl)
    obtain ⟨answers, notBehind⟩ :=
      (sought fresh rfl full).mp (iterates.fromKey fresh rfl)
    exact ⟨answers, full, by simpa using notBehind⟩
  · rintro ⟨answers, full, notBehind⟩
    refine ⟨fun iterator same => (enumerated iterator same).mpr full, ?_, ?_⟩
    · intro iterator same
      exact (sought iterator same full).mpr ⟨answers, notBehind first rfl⟩
    · intro iterator positioned valid
      exact positioned.stored full valid

/-- The leaf entry of a one-byte user key, written as value 1. -/
def entryOf (userKey : Byte) : Slice × Slice :=
  (InternalKey.encode ⟨[userKey], 1, .kTypeValue⟩, [userKey])

/-- Two pages, with the user keys 1 and 3 and with the user key 5. -/
def twoPages : LeafPages where
  pages := [[entryOf 1, entryOf 3], [entryOf 5]]
  width := 1
  nonempty := by decide
  leaf := by
    intro items member
    simp only [List.mem_cons, List.not_mem_nil, or_false] at member
    rcases member with rfl | rfl
    · exact ⟨by decide, by decide⟩
    · exact ⟨by decide, by decide⟩
  ascending := by decide

theorem twoPages_iterates :
    IteratesPages twoPages.pages (InternalKey.encode ⟨[2], 9, .kTypeValue⟩) := by
  apply (iteratesPages_iff twoPages _ (by decide)).mpr
  refine ⟨.inl ⟨_, rfl, entryOf 3, by decide, by decide⟩, by decide, ?_⟩
  rintro first isFirst ⟨offset, front, found, searched, atFront, -⟩
  obtain rfl : [entryOf 1, entryOf 3] = first := Option.some.inj isFirst
  have stopped : pageBinSearch (leafKeys [entryOf 1, entryOf 3])
      (InternalKey.encode ⟨[2], 9, .kTypeValue⟩) = 0 := by decide
  omega

/-- A target in the gap behind the first page makes the iterator invalid,
although the second page has an entry. -/
theorem seek_misses_second_page :
    ¬ ∀ (leaves : LeafPages) (key : Slice), key.length = leaves.width + 8 →
      IteratesPages leaves.pages key := by
  intro claim
  have iterates := claim twoPages (InternalKey.encode ⟨[4], 9, .kTypeValue⟩)
    (by decide)
  have sought := iterates.fromKey ⟨twoPages.pages, 0, 0, false⟩ rfl
  have entryEq := sought.entry_eq
  revert entryEq
  decide

end LeafPages

end AhaTree
