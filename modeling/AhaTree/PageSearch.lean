import AhaTree.SlottedUpsert
import AhaTree.NodePage

/-!
# The searches of a page and their linear specifications

The binary searches of `tree_page.cc` and of `node_page.h` on the bytes of a page.
All of them are one loop; they differ in where it starts, in what an equal key
ends with, and in a last step.  On ascending keys each of them counts: what it
returns is a number of entries below the key.
-/

namespace AhaTree.Slotted

namespace Page

variable (page : Page)

/-! ## The other searches -/

/-- `_page_bin_search_highkey`. -/
def binSearchHighkey (key : Slice) : Nat :=
  if page.itemNum = 0 then 0
  else
    match Lib.bisect (page.compare key) page.itemNum 0 (page.itemNum - 1) with
    | .hit mid => mid
    | .gap low => low

/-- `_lower_bound`.  The loop runs once even when there is no entry. -/
def lowerBound (key : Slice) : Nat :=
  if page.itemNum = 0 then
    if (page.compare key 0).isGT then 1 else 0
  else
    match Lib.bisect (page.compare key) page.itemNum 0 page.itemNum with
    | .hit mid => mid
    | .gap lower => lower

/-- `PageFindOffsetBol`. -/
def findOffsetBol (key : Slice) : Nat :=
  let offset := page.binSearch key
  if (page.compareUserKey key offset).isGT then offset + 1 else offset

/-! ## What they return, by going through all entries -/

/-- The greatest offset whose key is not above the given one, or 0. -/
def lastNotAbove (key : Slice) : Nat :=
  ((List.range page.itemNum).filter fun offset =>
    page.readPivotAtOffset offset ≤ key).max?.getD 0

def keysBelow (key : Slice) : Nat := page.keys.countP fun other => other < key

def userKeysBelow (key : Slice) : Nat :=
  page.keys.countP fun other => extractUserKey other < extractUserKey key

end Page

/-- The page holds internal keys of the length of the given one, each with a user key of
its own. -/
structure HoldsInternalKeys (page : Page) (key : Slice) : Prop where
  trailer : 8 ≤ key.length
  sameLength : ∀ other ∈ page.keys, other.length = key.length
  distinct : (page.keys.map extractUserKey).Nodup

/-! ## The searches on the keys -/

namespace Page

variable {page : Page}

theorem binSearchHighkey_eq (page : Page) (key : Slice) :
    page.binSearchHighkey key = Btree.pageBinSearchHighkey page.keys key := by
  rw [binSearchHighkey, compare_eq, ← keys_length]
  rfl

theorem lowerBound_eq (page : Page) (key : Slice) :
    page.lowerBound key = Olc.lowerBound page.keys key := by
  by_cases isEmpty : page.itemNum = 0
  · have noKey : page.readPivotAtOffset 0 = [] := if_pos (by omega)
    have noKeys : page.keys.length = 0 := by rw [keys_length, isEmpty]
    rw [lowerBound, Olc.lowerBound, if_pos isEmpty, if_pos noKeys, Page.compare, noKey]
  · rw [lowerBound, if_neg isEmpty, compare_eq, ← keys_length]
    exact (if_neg (by rwa [keys_length])).symm

theorem findOffsetBol_eq (page : Page) (key : Slice) :
    page.findOffsetBol key = pageFindOffsetBol page.keys key := by
  rw [findOffsetBol, pageFindOffsetBol, binSearch_eq]
  simp only [compareUserKey, readPivotAtOffset_eq]

theorem lastNotAbove_eq_of_greatest {key : Slice} {offset : Nat} (inside : offset < page.itemNum)
    (notAbove : page.readPivotAtOffset offset ≤ key)
    (last : ∀ later, later < page.itemNum → offset < later →
      key < page.readPivotAtOffset later) : page.lastNotAbove key = offset := by
  have isMax : ((List.range page.itemNum).filter fun offset =>
      page.readPivotAtOffset offset ≤ key).max? = some offset := by
    refine List.max?_eq_some_iff.mpr ⟨?_, ?_⟩
    · exact List.mem_filter.mpr ⟨List.mem_range.mpr inside, decide_eq_true notAbove⟩
    · intro other member
      obtain ⟨isOffset, isNotAbove⟩ := List.mem_filter.mp member
      by_contra further
      exact absurd (last other (List.mem_range.mp isOffset) (not_le.mp further))
        (not_lt.mpr (of_decide_eq_true isNotAbove))
  rw [lastNotAbove, isMax, Option.getD_some]

theorem lastNotAbove_eq_zero {key : Slice}
    (above : ∀ offset < page.itemNum, key < page.readPivotAtOffset offset) :
    page.lastNotAbove key = 0 := by
  have isNil : ((List.range page.itemNum).filter fun offset =>
      page.readPivotAtOffset offset ≤ key) = [] := by
    refine List.filter_eq_nil_iff.mpr fun offset member => ?_
    simpa using above offset (List.mem_range.mp member)
  rw [lastNotAbove, isNil]
  rfl

theorem keysBelow_eq {key : Slice} {offset : Nat} (parts : Lib.Parts page.entries key offset) :
    page.keysBelow key = offset := by
  rw [keysBelow, keys, List.countP_map, ← parts.countP_eq]
  exact List.countP_congr fun item _ => by simp

end Page

/-! ## Each of them counts -/

section searches

variable {page : Page} (ascending : page.keys.Pairwise (· < ·))

include ascending

theorem entries_ascending : Lib.Ascending page.entries := List.pairwise_map.mp ascending

theorem readPivot_lt {first second : Nat} (order : first < second)
    (inside : second < page.itemNum) :
    page.readPivotAtOffset first < page.readPivotAtOffset second := by
  have length := page.keys_length
  rw [Page.readPivotAtOffset_eq, Page.readPivotAtOffset_eq,
    pageReadPivotAtOffset_eq (by omega), pageReadPivotAtOffset_eq (by omega)]
  exact List.pairwise_iff_getElem.mp ascending first second (by omega) (by omega) order

theorem binSearchInsert_counts (key : Slice) :
    page.binSearchInsert key = page.keysBelow key := by
  rw [Page.binSearchInsert_eq]
  exact (Page.keysBelow_eq (Btree.pageBinSearchInsert_parts
    ((entries_ascending ascending).once key))).symm

theorem binSearchHighkey_counts (key : Slice) :
    page.binSearchHighkey key = min (page.keysBelow key) (page.itemNum - 1) := by
  rw [Page.binSearchHighkey_eq, Btree.pageBinSearchHighkey_eq, Page.keys_length,
    ← Page.binSearchInsert_eq, binSearchInsert_counts ascending]

variable (nonempty : 0 < page.itemNum)

include nonempty

/-- The last entry that is not above the key, or the first one with all entries above it. -/
theorem binSearch_finds (key : Slice) : page.binSearch key < page.itemNum ∧
    (page.readPivotAtOffset (page.binSearch key) ≤ key ∨
      page.binSearch key = 0 ∧ key < page.readPivotAtOffset 0) ∧
    ∀ later, later < page.itemNum → page.binSearch key < later →
      key < page.readPivotAtOffset later := by
  have length := page.keys_length
  obtain ⟨inside, notAbove, last⟩ := pageBinSearch_spec ascending
    (List.length_pos_iff.mp (by omega)) key
  rw [← Page.binSearch_eq] at inside
  simp only [← Page.binSearch_eq] at notAbove last
  refine ⟨by omega, ?_, ?_⟩
  · rw [Page.readPivotAtOffset_eq, pageReadPivotAtOffset_eq inside]
    rcases le_or_gt page.keys[page.binSearch key] key with reached | above
    · exact .inl reached
    · have isFirst := notAbove.resolve_right (not_le.mpr above)
      refine .inr ⟨isFirst, ?_⟩
      rw [Page.readPivotAtOffset_eq, pageReadPivotAtOffset_eq (by omega)]
      simpa only [isFirst] using above
  · intro later within further
    rw [Page.readPivotAtOffset_eq, pageReadPivotAtOffset_eq (by omega)]
    exact last later (by omega) further

theorem binSearch_counts (key : Slice) : page.binSearch key = page.lastNotAbove key := by
  obtain ⟨inside, stopped, last⟩ := binSearch_finds ascending nonempty key
  rcases stopped with reached | ⟨isFirst, above⟩
  · exact (Page.lastNotAbove_eq_of_greatest inside reached last).symm
  · rw [isFirst] at last ⊢
    refine (Page.lastNotAbove_eq_zero fun offset within => ?_).symm
    rcases Nat.eq_zero_or_pos offset with rfl | further
    · exact above
    · exact last offset within further

theorem lowerBound_parts (key : Slice) :
    Lib.Parts page.entries key (page.lowerBound key) := by
  have length := page.entries_length
  have searched := @Lib.bisect_spec (page.compare key) page.itemNum 0 page.itemNum
    (Nat.zero_le _) (Nat.le_refl _)
  have once := (entries_ascending ascending).once key
  have readAt : ∀ offset, (within : offset < page.entries.length) →
      page.readPivotAtOffset offset = (page.entries[offset]).1 := fun offset within => by
    rw [Page.readPivotAtOffset, if_neg (by omega), Page.entries_getElem within]
  rw [Page.lowerBound, if_neg (by omega)]
  generalize Lib.bisect (page.compare key) page.itemNum 0 page.itemNum = outcome at searched ⊢
  cases outcome with
  | hit mid =>
      obtain ⟨-, upper, equal⟩ := searched
      simp only [Page.compare, Slice.compare_eq_eq] at equal
      change Lib.Parts page.entries key mid
      refine once.parts (by omega) (fun small => ?_) (fun large => ?_)
      · rw [← readAt, equal]
        exact readPivot_lt ascending (by omega) upper
      · rw [← readAt, equal]
  | gap lower =>
      obtain ⟨-, upper, before, behind⟩ := searched
      simp only [Page.compare, Slice.compare_eq_gt, Slice.compare_eq_lt] at before behind
      change Lib.Parts page.entries key lower
      refine once.parts (by omega) (fun small => ?_) (fun large => ?_)
      · rw [← readAt]
        exact before.resolve_left (by omega)
      · rw [← readAt]
        exact (behind.resolve_left (by omega)).le

theorem lowerBound_counts (key : Slice) : page.lowerBound key = page.keysBelow key :=
  (Page.keysBelow_eq (lowerBound_parts ascending nonempty key)).symm

end searches

/-! ## Internal keys -/

section internalKeys

variable {page : Page} {key : Slice}

theorem userEntries_key {offset : Nat} (inside : offset < page.userEntries.length) :
    (page.userEntries[offset]).1 = extractUserKey (page.readPivotAtOffset offset) := by
  rw [Page.userEntries_getElem, Page.readPivotAtOffset, if_neg (by simpa using inside)]

theorem userEntries_ascending (ascending : page.keys.Pairwise (· < ·))
    (holds : HoldsInternalKeys page key) : Lib.Ascending page.userEntries := by
  refine List.pairwise_map.mpr ?_
  have distinct := holds.distinct
  rw [Page.keys, List.map_map] at distinct
  have ordered := (List.pairwise_map.mp ascending).and (List.pairwise_map.mp distinct)
  refine List.Pairwise.imp_of_mem (fun {left right} isLeft isRight order => ?_) ordered
  have sameLength : left.1.length = right.1.length :=
    (holds.sameLength _ (List.mem_map_of_mem isLeft)).trans
      (holds.sameLength _ (List.mem_map_of_mem isRight)).symm
  exact lt_of_le_of_ne (extractUserKey_le_of_le sameLength order.1.le) order.2

theorem userKeysBelow_eq {offset : Nat}
    (parts : Lib.Parts page.userEntries (extractUserKey key) offset) :
    page.userKeysBelow key = offset := by
  rw [← parts.countP_eq, Page.userEntries, List.countP_map, Page.userKeysBelow, Page.keys,
    List.countP_map]
  exact List.countP_congr fun item _ => by simp

theorem HoldsInternalKeys.length_eq (holds : HoldsInternalKeys page key) {offset : Nat}
    (inside : offset < page.itemNum) : (page.readPivotAtOffset offset).length = key.length := by
  refine holds.sameLength _ ?_
  have length := page.keys_length
  rw [Page.readPivotAtOffset_eq, pageReadPivotAtOffset_eq (by omega)]
  exact List.getElem_mem _

/-- The search compares whole keys.  Where it has stopped on another version of the user
key, the last comparison keeps it there, and where it has stopped on a smaller user key
it goes one further. -/
theorem findOffsetBol_counts (ascending : page.keys.Pairwise (· < ·))
    (nonempty : 0 < page.itemNum) (holds : HoldsInternalKeys page key) :
    page.findOffsetBol key = page.userKeysBelow key := by
  have users := userEntries_ascending ascending holds
  have ordered := List.pairwise_iff_getElem.mp users
  have length : page.userEntries.length = page.itemNum := Page.userEntries_length
  obtain ⟨inside, stopped, last⟩ := binSearch_finds ascending nonempty key
  rw [Page.findOffsetBol, Page.compareUserKey]
  generalize page.binSearch key = offset at *
  refine (userKeysBelow_eq ?_).symm
  simp only [Ordering.isGT_iff_eq_gt, Slice.compare_eq_gt]
  by_cases passed : extractUserKey (page.readPivotAtOffset offset) < extractUserKey key
  · rw [if_pos passed]
    refine (users.once _).parts (by omega) (fun _ => ?_) (fun large => ?_)
    · rw [userEntries_key]
      exact passed
    · rw [userEntries_key]
      exact extractUserKey_le_of_le (holds.length_eq (by omega)).symm
        (last (offset + 1) (by omega) (by omega)).le
  · rw [if_neg passed]
    refine (users.once _).parts (by omega) (fun small => ?_) (fun large => ?_)
    · have reached := stopped.resolve_right fun isFirst => absurd isFirst.1 (by omega)
      have below := extractUserKey_le_of_le (holds.length_eq inside) reached
      refine lt_of_lt_of_le ?_ below
      rw [← userEntries_key (by omega)]
      exact ordered (offset - 1) offset (by omega) (by omega) (by omega)
    · rw [userEntries_key]
      exact not_lt.mp passed

end internalKeys

/-- The searches of a page, and what they would return by going through all entries. -/
theorem searches_are_linear {page : Page} (ascending : page.keys.Pairwise (· < ·))
    (nonempty : 0 < page.itemNum) (key : Slice) :
    page.binSearch key = page.lastNotAbove key ∧
    page.binSearchInsert key = page.keysBelow key ∧
    page.binSearchHighkey key = min (page.keysBelow key) (page.itemNum - 1) ∧
    page.lowerBound key = page.keysBelow key ∧
    (HoldsInternalKeys page key → page.findOffsetBol key = page.userKeysBelow key) :=
  ⟨binSearch_counts ascending nonempty key, binSearchInsert_counts ascending key,
    binSearchHighkey_counts ascending key, lowerBound_counts ascending nonempty key,
    findOffsetBol_counts ascending nonempty⟩

/-- Entries for two user keys. -/
def twoEntries : Page :=
  (({ pageInit 3 fun _ => 0 with isLeaf := true }.writeEntryAt 0
    ([1, 0, 0, 0, 0, 0, 0, 0, 0], .value [7])).addItem.writeEntryAt 1
      ([4, 9, 0, 0, 0, 0, 0, 0, 0], .value [8])).addItem

theorem twoEntries_keys : twoEntries.keys =
    [[1, 0, 0, 0, 0, 0, 0, 0, 0], [4, 9, 0, 0, 0, 0, 0, 0, 0]] := rfl

/-- Another version of the second user key. -/
theorem searches_are_linear_twoEntries :
    let key : Slice := [4, 2, 0, 0, 0, 0, 0, 0, 0]
    twoEntries.binSearch key = twoEntries.lastNotAbove key ∧
    twoEntries.binSearchInsert key = twoEntries.keysBelow key ∧
    twoEntries.binSearchHighkey key =
      min (twoEntries.keysBelow key) (twoEntries.itemNum - 1) ∧
    twoEntries.lowerBound key = twoEntries.keysBelow key ∧
    twoEntries.findOffsetBol key = twoEntries.userKeysBelow key := by
  intro key
  have ascending : twoEntries.keys.Pairwise (· < ·) := by
    rw [twoEntries_keys]
    decide
  have holds : HoldsInternalKeys twoEntries key := by
    refine ⟨by decide, ?_, ?_⟩
    · rw [twoEntries_keys]
      decide
    · rw [twoEntries_keys]
      decide
  obtain ⟨found, place, highkey, lower, bol⟩ :=
    searches_are_linear ascending (show 0 < twoEntries.itemNum by decide) key
  exact ⟨found, place, highkey, lower, bol holds⟩

end AhaTree.Slotted
