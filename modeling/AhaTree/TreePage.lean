import AhaTree.InternalKey
import AhaTree.Lib.Bisect
import Mathlib.Data.List.Pairwise

/-!
# Searching a page

The entry list of a slotted page, as `PageReadPivotAtOffset` and its siblings
decode it, and the binary searches of `tree_page.cc` on it.  An index page maps
pivots to child pages, a leaf page maps internal keys to values; the searches
only read the keys.
-/

namespace AhaTree

abbrev PageId := Nat

/-- The entries of an index page. -/
abbrev IndexItems := List (Slice × PageId)

def pivots (items : IndexItems) : List Slice :=
  items.map Prod.fst

@[simp] theorem pivots_cons (item : Slice × PageId) (items : IndexItems) :
    pivots (item :: items) = item.1 :: pivots items := rfl

@[simp] theorem pivots_length (items : IndexItems) :
    (pivots items).length = items.length := by
  simp [pivots]

/-- `PageReadPivotAtOffset`: an empty slice past the last entry. -/
def pageReadPivotAtOffset (keys : List Slice) (offset : Nat) : Slice :=
  keys[offset]?.getD []

/-- `_page_bin_search`. -/
def pageBinSearch (keys : List Slice) (key : Slice) : Nat :=
  if keys.length = 0 then 0
  else
    match Lib.bisect
        (fun mid => Slice.compare key (pageReadPivotAtOffset keys mid))
        keys.length 0 (keys.length - 1) with
    | .hit mid => mid
    | .gap low =>
        if (Slice.compare key (pageReadPivotAtOffset keys low)).isGE then low
        else if low = 0 then low
        else low - 1

/-- `PageFindOffset` on an index page. -/
def pageFindOffset (items : IndexItems) (key : Slice) : Nat :=
  pageBinSearch (pivots items) key

/-- `PageFindOffsetBol`: the page holds internal keys, and only user keys decide
whether the target lies behind the entry that the search has found. -/
def pageFindOffsetBol (keys : List Slice) (key : Slice) : Nat :=
  let offset := pageBinSearch keys key
  if (Slice.compare (extractUserKey key)
      (extractUserKey (pageReadPivotAtOffset keys offset))).isGT then offset + 1
  else offset

theorem pageReadPivotAtOffset_eq {keys : List Slice} {offset : Nat}
    (inside : offset < keys.length) :
    pageReadPivotAtOffset keys offset = keys[offset] := by
  simp [pageReadPivotAtOffset, inside]

/-- Where a search has stopped, told by its last comparisons only: on an entry
not above the key, or in front of all entries; and the entry behind is above the
key, if the search has not stopped on an equal one. -/
structure StopsAt (keys : List Slice) (key : Slice) (offset : Nat) : Prop where
  inside : offset < keys.length
  notAbove : offset = 0 ∨ pageReadPivotAtOffset keys offset ≤ key
  below : pageReadPivotAtOffset keys offset ≠ key →
    offset + 1 = keys.length ∨
      (offset = 0 ∧ key < pageReadPivotAtOffset keys 0) ∨
      key < pageReadPivotAtOffset keys (offset + 1)

/-- What the searches on any non-empty page guarantee, sorted or not. -/
theorem pageBinSearch_stops {keys : List Slice} (nonempty : keys ≠ [])
    (key : Slice) : StopsAt keys key (pageBinSearch keys key) := by
  have positive : 0 < keys.length := List.length_pos_iff.mpr nonempty
  have searched := @Lib.bisect_spec
    (fun mid => Slice.compare key (pageReadPivotAtOffset keys mid))
    keys.length 0 (keys.length - 1) (by omega) (by omega)
  rw [pageBinSearch, if_neg (by omega)]
  generalize Lib.bisect
    (fun mid => Slice.compare key (pageReadPivotAtOffset keys mid))
    keys.length 0 (keys.length - 1) = outcome at searched ⊢
  cases outcome with
  | hit mid =>
      obtain ⟨-, upper, equal⟩ := searched
      have found : key = pageReadPivotAtOffset keys mid := by simpa using equal
      refine ⟨by simp only; omega, .inr (by simp only; rw [← found]), ?_⟩
      intro different
      exact absurd found.symm different
  | gap low =>
      obtain ⟨-, upper, before, behind⟩ := searched
      simp only [Slice.compare_eq_gt, Slice.compare_eq_lt] at before behind
      simp only [Slice.compare_isGE]
      by_cases reached : pageReadPivotAtOffset keys low ≤ key
      · rw [if_pos reached]
        refine ⟨by omega, .inr reached, fun _ => ?_⟩
        rcases behind with last | above
        · exact .inl (by omega)
        · exact absurd reached (not_le.mpr above)
      · have above := not_le.mp reached
        rw [if_neg reached]
        by_cases first : low = 0
        · subst low
          rw [if_pos rfl]
          exact ⟨positive, .inl rfl, fun _ => .inr (.inl ⟨rfl, above⟩)⟩
        · rw [if_neg first]
          have passed := before.resolve_left first
          refine ⟨by omega, .inr passed.le, fun _ => .inr (.inr ?_)⟩
          have step : low - 1 + 1 = low := by omega
          rwa [step]

/-- On strictly increasing keys `_page_bin_search` finds the last entry that is
not above the key, or the first entry when all of them are above. -/
theorem pageBinSearch_spec {keys : List Slice}
    (increasing : keys.Pairwise (· < ·)) (nonempty : keys ≠ []) (key : Slice) :
    ∃ inside : pageBinSearch keys key < keys.length,
      (pageBinSearch keys key = 0 ∨ keys[pageBinSearch keys key] ≤ key) ∧
      ∀ offset, (within : offset < keys.length) →
        pageBinSearch keys key < offset → key < keys[offset] := by
  obtain ⟨inside, notAbove, below⟩ := pageBinSearch_stops nonempty key
  generalize pageBinSearch keys key = found at *
  rw [pageReadPivotAtOffset_eq inside] at notAbove below
  refine ⟨inside, notAbove, ?_⟩
  intro offset within further
  have ascending := List.pairwise_iff_getElem.mp increasing
  by_cases equal : keys[found] = key
  · rw [← equal]
    exact ascending found offset inside within further
  · rcases below equal with last | ⟨rfl, above⟩ | above
    · omega
    · rw [pageReadPivotAtOffset_eq inside] at above
      exact above.trans (ascending 0 offset inside within further)
    · rw [pageReadPivotAtOffset_eq (by omega)] at above
      rcases Nat.lt_or_ge (found + 1) offset with farther | here
      · exact above.trans (ascending (found + 1) offset (by omega) within farther)
      · have same : offset = found + 1 := by omega
        subst same
        exact above

end AhaTree
