import AhaTree.SlottedSpace
import AhaTree.Routing

/-!
# Splitting an index page

The number of pages comes from the entries of the page and of the children that
have been split, and the share of a page from the pivots that are distributed.
Both are rounded up, so it takes an argument that the last page gets a pivot,
and no page more than it has room for.

A split is judged by the descent: each key is led to the child to which one page
with all entries would lead it.
-/

namespace AhaTree.Slotted

/-! ## The code -/

/-- The page that is filled, what has been put on it, and the guards so far. -/
structure Filling where
  page : Page
  offset : Nat
  guards : List Slice

namespace Filling

/-- The first entry of a page gives its guard. -/
def insert (filling : Filling) (item : Slice × UInt32) : Option Filling :=
  (filling.page.insertIndexEntry item.1 item.2).map fun page =>
    { page
      offset := filling.offset + 1
      guards :=
        if filling.offset = 0 then filling.guards ++ [page.readPivotAtOffset 0]
        else filling.guards }

end Filling

/-- The first loop of `DistributePivots`, with the pivots that it leaves. -/
def fillExtraOne (pageItemSize : Nat) :
    SlicePageMap → Filling → Option (Filling × SlicePageMap)
  | [], filling => some (filling, [])
  | item :: items, filling =>
      (filling.insert item).bind fun filling =>
        if pageItemSize ≤ filling.offset then some (filling, items)
        else fillExtraOne pageItemSize items filling

/-- The second loop of `DistributePivots`. -/
def fillNewPages (pageItemSize : Nat) :
    SlicePageMap → Filling → List Page → Option (List Page × List Slice)
  | [], filling, others => some (filling.page :: others, filling.guards)
  | item :: items, filling, others =>
      (filling.insert item).bind fun filling =>
        match others with
        | next :: others =>
            if pageItemSize ≤ filling.offset then
              (fillNewPages pageItemSize items ⟨next, 0, filling.guards⟩ others).map
                fun filled => (filling.page :: filled.1, filled.2)
            else fillNewPages pageItemSize items filling (next :: others)
        | [] => fillNewPages pageItemSize items filling []

/-- `BplusTree::DistributePivots` with its two loops as they are, for new pages from
`Allocate`. -/
def distributeInTurn (pgId : Nat) (tempPivots : SlicePageMap) (newPages : List Nat) :
    Option (List Page × List Slice) :=
  let size := pageItemSize tempPivots.length (newPages.length + 1)
  (fillExtraOne size tempPivots ⟨pageInit pgId fun _ => 0, 0, []⟩).bind fun filled =>
    match newPages with
    | [] => none
    | curPage :: others =>
        (fillNewPages size filled.2 ⟨allocate curPage, 0, filled.1.guards⟩
          (others.map allocate)).map fun pages => (filled.1.page :: pages.1, pages.2)

/-- `BplusTree::TreeSplitInternalPage` and `SplitInternalPages`, as far as the pages go: the
page that stays in memory, the new pages, and the guards. -/
def treeSplitInternalPage (page : Page) (newPivots : List SlicePageMap)
    (oldPivots : List (Slice × UInt32)) (newPages : List Nat) :
    Option (List Page × List Slice) :=
  distributeInTurn page.pageId (splitPivots page newPivots oldPivots) newPages

/-- The result of `SplitNodeAndLSMT` for an index page. -/
def splitResult (pgId : Nat) (newPages : List Nat) (guards : List Slice) : SlicePageMap :=
  SlicePageMap.assign [] (guards.zip ((pgId :: newPages).map UInt32.ofNat))

/-- `Node::InstallNewPage`. -/
def installNewPage (selfPage extraPage : Page) : Page :=
  { extraPage with
    pageId := selfPage.pageId
    isLeaf := selfPage.isLeaf
    isDirty := true
    left := selfPage.left
    right := selfPage.right }

/-- `AhaTree::UpdateRoot`: the kept page is installed, `AllocateRoot` copies it to a new page
and empties the root, and the result goes to the root, with the new page in the place of
the root.  Both pages are returned, the root first. -/
def updateRoot (rootPage extraPage : Page) (result : SlicePageMap) (newId : Nat) :
    Option (Page × Page) :=
  let installed := installNewPage rootPage extraPage
  let items := match result with
    | [] => []
    | first :: others => (first.1, UInt32.ofNat newId) :: others
  (insertIndexEntries (pageInit rootPage.pageId installed.bytes) items).map fun root =>
    (root, { installed with pageId := newId })

/-- The child to which a search of entries leads. -/
def childIn (items : SlicePageMap) (key : Slice) : Option UInt32 :=
  (items[pageBinSearch (items.map Prod.fst) key]?).map Prod.snd

namespace Page

/-- The pivots and children as the split collects them. -/
def index (page : Page) : SlicePageMap :=
  (List.range page.itemNum).map fun offset =>
    (page.readPivotAtOffset offset, page.readChildAtOffset offset)

/-- One step of a descent: `PageFindOffset` and `PageReadChildAtOffset`. -/
def childFor (page : Page) (key : Slice) : UInt32 :=
  page.readChildAtOffset (page.binSearch key)

end Page

/-! ## What is split -/

/-- The children of an index page that have been split: the first pivot of a result is the
one of the old child, and the others are inside the interval of the old child. -/
structure SplitResults (page : Page) (newPivots : List SlicePageMap)
    (oldPivots : List (Slice × UInt32)) : Prop where
  sameLength : newPivots.length = oldPivots.length
  distinct : (oldPivots.map Prod.fst).Nodup
  present : ∀ old ∈ oldPivots, old ∈ page.index
  ascending : ∀ kids ∈ newPivots, Lib.Ascending kids
  starts : ∀ change ∈ newPivots.zip oldPivots, change.1.head?.map Prod.fst = some change.2.1
  inside : ∀ change ∈ newPivots.zip oldPivots, ∀ other ∈ page.keys, change.2.1 < other →
    ∀ kid ∈ change.1, kid.1 < other

/-- The entries that take the place of an entry. -/
def rowOf (newPivots : List SlicePageMap) (oldPivots : List (Slice × UInt32))
    (item : Slice × UInt32) : SlicePageMap :=
  match (newPivots.zip oldPivots).find? fun change => change.2.1 = item.1 with
  | some change => change.1
  | none => [item]

/-- The entries of a page with the replaced ones substituted. -/
def substitute (page : Page) (newPivots : List SlicePageMap)
    (oldPivots : List (Slice × UInt32)) : SlicePageMap :=
  page.index.flatMap (rowOf newPivots oldPivots)

/-! ## The entries of an index page -/

section index

variable {page after : Page}

@[simp] theorem index_length (page : Page) : page.index.length = page.itemNum := by
  simp [Page.index]

theorem keys_index (page : Page) : page.index.map Prod.fst = page.keys := by
  rw [Page.index, List.map_map, Page.keys, Page.entries, Page.ids, List.map_map, List.map_map]
  refine List.map_congr_left fun offset inside => ?_
  simp only [Function.comp_apply, Page.readPivotAtOffset]
  rw [if_neg (by simpa using inside)]
  rfl

/-- The entries are the pivots with their children. -/
theorem entries_index (isIndex : page.isLeaf = false) :
    page.entries = page.index.map fun item => (item.1, Payload.child item.2) := by
  rw [Page.index, List.map_map, Page.entries, Page.ids, List.map_map]
  refine List.map_congr_left fun offset inside => ?_
  simp only [Function.comp_apply, Page.readPivotAtOffset, Page.readChildAtOffset]
  rw [if_neg (by simpa using inside), decodeEntry_child isIndex]
  exact Prod.ext rfl (decodeEntry_child isIndex offset)

theorem entry_injective : Function.Injective fun item : Slice × UInt32 =>
    (item.1, Payload.child item.2) := by
  intro left right same
  obtain ⟨sameKey, sameChild⟩ := Prod.ext_iff.mp same
  exact Prod.ext sameKey (Payload.child.inj sameChild)

theorem index_ascending (wellFormed : WellFormed page) : Lib.Ascending page.index :=
  List.pairwise_map.mp ((keys_index page).symm ▸ wellFormed.increasing)

theorem place_index (key : Slice) (child : UInt32) (items : SlicePageMap) :
    Lib.place key (Payload.child child)
        (items.map fun item => (item.1, Payload.child item.2)) =
      (Lib.place key child items).map fun item => (item.1, Payload.child item.2) := by
  simp only [Lib.place, List.map_append, List.map_cons, List.filter_map]
  rfl

/-- An insertion places the pivot. -/
theorem insertIndexEntry_index (wellFormed : WellFormed page) (isIndex : page.isLeaf = false)
    {key : Slice} {child : UInt32} (absent : key ∉ page.index.map Prod.fst)
    (done : page.insertIndexEntry key child = some after) :
    WellFormed after ∧ after.isLeaf = false ∧
      after.index = Lib.place key child page.index := by
  have inserted := insertIndexEntry_inserted wellFormed isIndex (keys_index page ▸ absent) done
  have stillIndex := inserted.isLeaf.trans isIndex
  refine ⟨inserted.wellFormed, stillIndex, ?_⟩
  have entries := inserted.entries
  rw [entries_index isIndex, entries_index stillIndex, place_index] at entries
  exact entry_injective.list_map entries

/-- One insertion after the other places the pivots. -/
theorem insertIndexEntries_index (wellFormed : WellFormed page) (isIndex : page.isLeaf = false)
    {items : SlicePageMap} (absent : ∀ item ∈ items, item.1 ∉ page.index.map Prod.fst)
    (distinct : items.Pairwise fun left right => left.1 ≠ right.1)
    (done : insertIndexEntries page items = some after) :
    WellFormed after ∧ after.isLeaf = false ∧ after.index = Lib.places page.index items := by
  induction items generalizing page with
  | nil =>
      cases done
      exact ⟨wellFormed, isIndex, rfl⟩
  | cons item items ih =>
      obtain ⟨next, isNext, rest⟩ := Option.bind_eq_some_iff.mp done
      obtain ⟨isAbsent, others⟩ := List.forall_mem_cons.mp absent
      obtain ⟨apart, restApart⟩ := List.pairwise_cons.mp distinct
      obtain ⟨nextFormed, nextIndex, placed⟩ :=
        insertIndexEntry_index wellFormed isIndex isAbsent isNext
      have later := ih nextFormed nextIndex ?_ restApart rest
      · rwa [placed] at later
      intro other member isKey
      obtain ⟨found, isFound, sameKey⟩ := List.mem_map.mp isKey
      rw [placed] at isFound
      rcases Lib.mem_place.mp isFound with rfl | ⟨old, -⟩
      · exact apart other member sameKey
      · exact others other member (sameKey ▸ List.mem_map_of_mem old)

end index

/-! ## The loops -/

/-- The page has what has been taken, and the first of it is the last guard. -/
structure Fills (filling : Filling) (taken : SlicePageMap) (earlier : List Slice) : Prop where
  wellFormed : WellFormed filling.page
  isIndex : filling.page.isLeaf = false
  index : filling.page.index = taken
  offset : filling.offset = taken.length
  guards : filling.guards = earlier ++ (taken.take 1).map Prod.fst

theorem fills_fresh (pgId : Nat) (guards : List Slice) :
    Fills ⟨allocate pgId, 0, guards⟩ [] guards where
  wellFormed := wellFormed_pageInit pgId false fun _ => 0
  isIndex := rfl
  index := rfl
  offset := rfl
  guards := by simp

theorem readPivotAtOffset_zero {page : Page} {first : Slice × UInt32} {others : SlicePageMap}
    (isFirst : page.index = first :: others) : page.readPivotAtOffset 0 = first.1 := by
  have nonempty : 0 < page.index.length := by simp [isFirst]
  have atZero : page.index[0] = first := by simp [isFirst]
  rw [← atZero]
  simp [Page.index]

/-- The first pivot, as far as there is one. -/
theorem map_readPivotAtOffset_zero (pages : List Page) :
    pages.map (fun page => page.readPivotAtOffset 0) =
      (pages.map Page.index).map fun index => (index.head?.map Prod.fst).getD [] := by
  rw [List.map_map]
  refine List.map_congr_left fun page _ => ?_
  rw [Function.comp_apply]
  cases isIndex : page.index with
  | nil =>
      have isEmpty : page.itemNum = 0 := by rw [← index_length, isIndex, List.length_nil]
      rw [Page.readPivotAtOffset, if_pos (Nat.le_of_eq isEmpty)]
      rfl
  | cons first others => exact readPivotAtOffset_zero isIndex

section loops

variable {size : Nat} {filling after : Filling} {taken items : SlicePageMap}
  {earlier : List Slice}

theorem Fills.insert (fills : Fills filling taken earlier) {item : Slice × UInt32}
    (above : ∀ other ∈ taken, other.1 < item.1) (done : filling.insert item = some after) :
    Fills after (taken ++ [item]) earlier := by
  obtain ⟨page, isPage, rfl⟩ := Option.map_eq_some_iff.mp done
  have absent : item.1 ∉ filling.page.index.map Prod.fst := by
    rw [fills.index]
    intro member
    obtain ⟨other, isOther, same⟩ := List.mem_map.mp member
    exact absurd (above other isOther) (same ▸ lt_irrefl _)
  obtain ⟨wellFormed, isIndex, placed⟩ :=
    insertIndexEntry_index fills.wellFormed fills.isIndex absent isPage
  rw [fills.index, Lib.place_last above] at placed
  refine ⟨wellFormed, isIndex, placed, by simp [fills.offset], ?_⟩
  cases taken with
  | nil =>
      have first : filling.offset = 0 := fills.offset
      rw [if_pos first, readPivotAtOffset_zero placed, fills.guards]
      simp
  | cons first others =>
      have later : filling.offset ≠ 0 := by simp [fills.offset]
      rw [if_neg later, fills.guards]
      simp

theorem fillExtraOne_spec (fills : Fills filling taken earlier)
    (ascending : Lib.Ascending (taken ++ items)) (below : taken.length < size)
    {rest : SlicePageMap} (done : fillExtraOne size items filling = some (after, rest)) :
    Fills after ((taken ++ items).take size) earlier ∧ rest = (taken ++ items).drop size := by
  induction items generalizing filling taken with
  | nil =>
      cases done
      rw [List.append_nil, List.take_of_length_le below.le, List.drop_of_length_le below.le]
      exact ⟨fills, rfl⟩
  | cons item items ih =>
      obtain ⟨next, isNext, further⟩ := Option.bind_eq_some_iff.mp done
      obtain ⟨-, -, less⟩ := Lib.ascending_append.mp ascending
      have nextFills := fills.insert (fun other member =>
        less other member item List.mem_cons_self) isNext
      have isOffset : next.offset = taken.length + 1 := by simp [nextFills.offset]
      rw [isOffset] at further
      rw [List.append_cons] at ascending ⊢
      split_ifs at further with full
      · cases further
        have exact : size = (taken ++ [item]).length := by
          rw [List.length_append, List.length_singleton]
          omega
        rw [exact, List.take_left, List.drop_left]
        exact ⟨nextFills, rfl⟩
      · exact ih nextFills ascending (by simpa using full) further

/-- New pages that are not reached stay empty. -/
theorem fresh_index (others : List Nat) :
    (others.map allocate).map Page.index = List.replicate others.length [] := by
  rw [List.map_map]
  exact List.eq_replicate_iff.mpr ⟨by simp, fun row member => by
    obtain ⟨pgId, -, rfl⟩ := List.mem_map.mp member
    rfl⟩

theorem fillNewPages_spec (positive : 0 < size) {others : List Nat}
    (fills : Fills filling taken earlier) (ascending : Lib.Ascending (taken ++ items))
    (below : others ≠ [] → taken.length < size) {pages : List Page} {guards : List Slice}
    (done : fillNewPages size items filling (others.map allocate) = some (pages, guards)) :
    pages.map Page.index = Lib.shares size others.length (taken ++ items) ∧
      guards = earlier ++ (Lib.shares size others.length (taken ++ items)).flatMap
        (fun share => (share.take 1).map Prod.fst) ∧
      ∀ page ∈ pages, WellFormed page ∧ page.isLeaf = false := by
  induction items generalizing filling taken earlier others pages guards with
  | nil =>
      cases done
      have shares : Lib.shares size others.length taken =
          taken :: List.replicate others.length [] :=
        Lib.shares_short fun some => below (List.ne_nil_of_length_pos (Nat.pos_of_ne_zero some))
      rw [List.append_nil, shares]
      refine ⟨?_, ?_, List.forall_mem_cons.mpr ⟨⟨fills.wellFormed, fills.isIndex⟩, ?_⟩⟩
      · rw [List.map_cons, fills.index, fresh_index]
      · rw [fills.guards, List.flatMap_cons]
        simp
      · intro page member
        obtain ⟨pgId, -, rfl⟩ := List.mem_map.mp member
        exact ⟨wellFormed_pageInit pgId false fun _ => 0, rfl⟩
  | cons item items ih =>
      obtain ⟨next, isNext, further⟩ := Option.bind_eq_some_iff.mp done
      obtain ⟨-, -, less⟩ := Lib.ascending_append.mp ascending
      have nextFills := fills.insert (fun other member =>
        less other member item List.mem_cons_self) isNext
      have isOffset : next.offset = taken.length + 1 := by simp [nextFills.offset]
      rw [List.append_cons] at ascending ⊢
      cases others with
      | nil => exact ih nextFills ascending (fun some => absurd rfl some) further
      | cons other others =>
          simp only [List.map_cons, isOffset] at further
          split_ifs at further with full
          · obtain ⟨⟨morePages, moreGuards⟩, isMore, isBoth⟩ :=
              Option.map_eq_some_iff.mp further
            cases isBoth
            have reached := below (List.cons_ne_nil _ _)
            have exact : size = (taken ++ [item]).length := by
              rw [List.length_append, List.length_singleton]
              omega
            obtain ⟨indexes, isGuards, formed⟩ := ih (fills_fresh other next.guards)
              (Lib.ascending_append.mp ascending).2.1 (fun _ => positive) isMore
            rw [List.length_cons, Lib.shares, exact, List.take_left, List.drop_left, ← exact]
            refine ⟨?_, ?_, List.forall_mem_cons.mpr
              ⟨⟨nextFills.wellFormed, nextFills.isIndex⟩, formed⟩⟩
            · rw [List.map_cons, nextFills.index, indexes, List.nil_append]
            · rw [isGuards, nextFills.guards, List.flatMap_cons, List.append_assoc,
                List.nil_append]
          · exact ih nextFills ascending (fun _ => by simpa using full) further

end loops

section distribute

variable {pgId : Nat} {tempPivots : SlicePageMap} {newPages : List Nat} {pages : List Page}
  {guards : List Slice}

/-- The pages get shares of one size, the last one all that is left, and the first pivot of
a share is the guard of its page. -/
theorem distributeInTurn_spec (ascending : Lib.Ascending tempPivots)
    (positive : 0 < pageItemSize tempPivots.length (newPages.length + 1))
    (done : distributeInTurn pgId tempPivots newPages = some (pages, guards)) :
    pages.map Page.index = Lib.shares (pageItemSize tempPivots.length (newPages.length + 1))
        newPages.length tempPivots ∧
      guards = (pages.map Page.index).flatMap (fun share => (share.take 1).map Prod.fst) ∧
      ∀ page ∈ pages, WellFormed page ∧ page.isLeaf = false := by
  unfold distributeInTurn at done
  simp only at done
  generalize pageItemSize tempPivots.length (newPages.length + 1) = size at *
  obtain ⟨⟨extra, rest⟩, isExtra, further⟩ := Option.bind_eq_some_iff.mp done
  obtain ⟨extraFills, isRest⟩ := fillExtraOne_spec (fills_fresh pgId []) ascending positive isExtra
  rw [List.nil_append] at extraFills isRest
  cases newPages with
  | nil => cases further
  | cons curPage others =>
      obtain ⟨⟨morePages, moreGuards⟩, isMore, isBoth⟩ := Option.map_eq_some_iff.mp further
      cases isBoth
      have restAscending : Lib.Ascending ([] ++ rest) :=
        isRest ▸ ascending.sublist (List.drop_sublist size tempPivots)
      obtain ⟨indexes, isGuards, formed⟩ := fillNewPages_spec positive
        (fills_fresh curPage extra.guards) restAscending (fun _ => positive) isMore
      rw [List.nil_append, isRest] at indexes isGuards
      refine ⟨?_, ?_, List.forall_mem_cons.mpr
        ⟨⟨extraFills.wellFormed, extraFills.isIndex⟩, formed⟩⟩
      · rw [List.map_cons, extraFills.index, indexes]
        rfl
      · rw [isGuards, extraFills.guards, List.map_cons, List.flatMap_cons, extraFills.index,
          indexes, List.nil_append]

/-! The pages are those of `distributePivots`, which puts the first share on its page in one
go and reads the guards at the end. -/

theorem fillExtraOne_pages {size : Nat} {items : SlicePageMap} {filling : Filling}
    (below : filling.offset < size) :
    (fillExtraOne size items filling).map (fun filled => (filled.1.page, filled.2)) =
      (insertIndexEntries filling.page (items.take (size - filling.offset))).map
        fun page => (page, items.drop (size - filling.offset)) := by
  induction items generalizing filling with
  | nil => simp [fillExtraOne, insertIndexEntries]
  | cons item items ih =>
      obtain ⟨more, isMore⟩ : ∃ more, size - filling.offset = more + 1 :=
        ⟨size - filling.offset - 1, by omega⟩
      rw [fillExtraOne, isMore, List.take_succ_cons, List.drop_succ_cons, Filling.insert,
        insertIndexEntries, List.foldlM_cons]
      cases inserted : filling.page.insertIndexEntry item.1 item.2 with
      | none => rfl
      | some page =>
          simp only [Option.map_some, Option.bind_some, Option.bind_eq_bind]
          by_cases full : size ≤ filling.offset + 1
          · have noMore : more = 0 := by omega
            rw [if_pos full, noMore]
            rfl
          · rw [if_neg full, ih (by simpa using full)]
            have isRest : size - (filling.offset + 1) = more := by omega
            simp only [isRest]
            rfl

theorem fillNewPages_pages {size : Nat} {items : SlicePageMap} {filling : Filling}
    {others : List Page} : (fillNewPages size items filling others).map Prod.fst =
      fillPages size items filling.page filling.offset others := by
  induction items generalizing filling others with
  | nil => rfl
  | cons item items ih =>
      rw [fillNewPages, fillPages, Filling.insert]
      cases inserted : filling.page.insertIndexEntry item.1 item.2 with
      | none => rfl
      | some page =>
          simp only [Option.map_some, Option.bind_some]
          cases others with
          | nil => exact ih
          | cons next others =>
              simp only
              generalize (if filling.offset = 0 then
                filling.guards ++ [page.readPivotAtOffset 0] else filling.guards) = guards
              by_cases full : size ≤ filling.offset + 1
              · rw [if_pos full, if_pos full, Option.map_map, ← @ih ⟨next, 0, guards⟩ others,
                  Option.map_map]
                rfl
              · rw [if_neg full, if_neg full]
                exact ih

theorem distributeInTurn_pages (several : newPages ≠ [])
    (positive : 0 < pageItemSize tempPivots.length (newPages.length + 1)) :
    (distributeInTurn pgId tempPivots newPages).map Prod.fst =
      (distributePivots pgId tempPivots (newPages.map allocate)).map Prod.fst := by
  obtain ⟨curPage, others, rfl⟩ := List.exists_cons_of_ne_nil several
  have extra := @fillExtraOne_pages _ tempPivots ⟨pageInit pgId fun _ => 0, 0, []⟩ positive
  unfold distributeInTurn distributePivots
  simp only [List.map_cons, List.length_cons, List.length_map, Nat.sub_zero] at extra ⊢
  generalize pageItemSize tempPivots.length (others.length + 1 + 1) = size at *
  cases isExtra : fillExtraOne size tempPivots ⟨pageInit pgId fun _ => 0, 0, []⟩ with
  | none =>
      rw [isExtra] at extra
      have isNone := Option.map_eq_none_iff.mp extra.symm
      rw [isNone]
      rfl
  | some filled =>
      rw [isExtra] at extra
      obtain ⟨page, isPage, isBoth⟩ := Option.map_eq_some_iff.mp extra.symm
      obtain ⟨samePage, sameRest⟩ := Prod.mk.inj isBoth
      rw [isPage, Option.bind_some, Option.bind_some, Option.map_map, Option.map_map, sameRest,
        ← @fillNewPages_pages _ filled.2 ⟨allocate curPage, 0, filled.1.guards⟩, Option.map_map,
        samePage]
      rfl

/-- The guards are those of the pages that have an entry. -/
theorem firsts_eq (pages : List Page) :
    (pages.map Page.index).flatMap (fun share => (share.take 1).map Prod.fst) =
      (pages.filter fun page => 0 < page.itemNum).map fun page => page.readPivotAtOffset 0 := by
  induction pages with
  | nil => rfl
  | cons page pages ih =>
      rw [List.map_cons, List.flatMap_cons, ih, List.filter_cons]
      cases isIndex : page.index with
      | nil =>
          have isEmpty : page.itemNum = 0 := by rw [← index_length, isIndex, List.length_nil]
          rw [if_neg (by simp [isEmpty])]
          rfl
      | cons first others =>
          have positive : 0 < page.itemNum := by
            rw [← index_length, isIndex]
            exact Nat.succ_pos _
          rw [if_pos (decide_eq_true positive), List.map_cons, readPivotAtOffset_zero isIndex]
          rfl

theorem distributeInTurn_eq (ascending : Lib.Ascending tempPivots) (several : newPages ≠ [])
    (positive : 0 < pageItemSize tempPivots.length (newPages.length + 1)) :
    distributeInTurn pgId tempPivots newPages =
      distributePivots pgId tempPivots (newPages.map allocate) := by
  have samePages := @distributeInTurn_pages pgId _ _ several positive
  cases inTurn : distributeInTurn pgId tempPivots newPages with
  | none =>
      rw [inTurn] at samePages
      exact (Option.map_eq_none_iff.mp samePages.symm).symm
  | some both =>
      rw [inTurn] at samePages
      obtain ⟨⟨pages, guards⟩, atOnce, isPages⟩ := Option.map_eq_some_iff.mp samePages.symm
      obtain ⟨-, isGuards, -⟩ := distributeInTurn_spec ascending positive inTurn
      have others : guards = (pages.filter fun page => 0 < page.itemNum).map
          fun page => page.readPivotAtOffset 0 := by
        obtain ⟨extraOne, -, further⟩ := Option.bind_eq_some_iff.mp atOnce
        cases isNew : newPages.map allocate with
        | nil =>
            rw [isNew] at further
            cases further
        | cons curPage more =>
            rw [isNew] at further
            obtain ⟨filled, -, isBoth⟩ := Option.map_eq_some_iff.mp further
            cases isBoth
            rfl
      have sameFirst : pages = both.1 := isPages
      rw [atOnce, others, sameFirst, ← firsts_eq, ← isGuards]

end distribute

/-! ## Maps of pivots -/

namespace SlicePageMap

variable {map : SlicePageMap}

theorem merge_ascending (ascending : Lib.Ascending map) (others : SlicePageMap) :
    Lib.Ascending (map.merge others) := by
  induction others generalizing map with
  | nil => exact ascending
  | cons other others ih =>
      rw [merge, List.foldl_cons]
      split_ifs
      · exact ih ascending
      · exact ih ascending.place

theorem mem_keys_merge {others : SlicePageMap} {key : Slice} :
    key ∈ (map.merge others).map Prod.fst ↔
      key ∈ map.map Prod.fst ∨ key ∈ others.map Prod.fst := by
  induction others generalizing map with
  | nil => simp [merge]
  | cons other others ih =>
      rw [merge, List.foldl_cons, ← merge, ih, List.map_cons, List.mem_cons]
      split_ifs with present
      · constructor
        · exact Or.imp_right .inr
        · rintro (member | rfl | later)
          · exact .inl member
          · exact .inl present
          · exact .inr later
      · rw [Lib.mem_keys_place, or_assoc, or_left_comm]

theorem mergeAll_ascending (ascending : Lib.Ascending map) (maps : List SlicePageMap) :
    Lib.Ascending (maps.foldl merge map) := by
  induction maps generalizing map with
  | nil => exact ascending
  | cons others maps ih => exact ih (merge_ascending ascending others)

theorem mem_keys_mergeAll {maps : List SlicePageMap} {key : Slice} :
    key ∈ (maps.foldl merge map).map Prod.fst ↔
      key ∈ map.map Prod.fst ∨ ∃ others ∈ maps, key ∈ others.map Prod.fst := by
  induction maps generalizing map with
  | nil => simp
  | cons others maps ih =>
      rw [List.foldl_cons, ih, mem_keys_merge, or_assoc]
      simp only [List.mem_cons, exists_eq_or_imp]

/-- Pivots that are in order are assigned in this order. -/
theorem assign_nil {items : SlicePageMap} (ascending : Lib.Ascending items) :
    SlicePageMap.assign [] items = items :=
  @Lib.places_last _ _ _ [] items ascending

end SlicePageMap

/-! ## Replacing entries -/

section substitute

variable {page : Page} {newPivots : List SlicePageMap} {oldPivots : List (Slice × UInt32)}
  {item : Slice × UInt32}

theorem rowOf_kept (stays : item.1 ∉ oldPivots.map Prod.fst) :
    rowOf newPivots oldPivots item = [item] := by
  have noChange : (newPivots.zip oldPivots).find? (fun change => change.2.1 = item.1) = none := by
    refine List.find?_eq_none.mpr fun change member isKey => stays ?_
    rw [← of_decide_eq_true isKey]
    exact List.mem_map_of_mem (List.of_mem_zip member).2
  rw [rowOf, noChange]

theorem flatMap_rowOf_kept (items : SlicePageMap) :
    (items.filter fun item => !decide (item.1 ∈ oldPivots.map Prod.fst)).flatMap
        (rowOf newPivots oldPivots) =
      items.filter fun item => item.1 ∉ oldPivots.map Prod.fst := by
  have sameFilter : (items.filter fun item => !decide (item.1 ∈ oldPivots.map Prod.fst)) =
      items.filter fun item => item.1 ∉ oldPivots.map Prod.fst :=
    List.filter_congr fun item _ => decide_not.symm
  rw [sameFilter]
  refine Eq.trans (List.flatMap_congr fun item member => ?_) (List.flatMap_singleton' _)
  exact rowOf_kept (of_decide_eq_true (List.mem_filter.mp member).2)

theorem flatten_length (nonempty : ∀ kids ∈ newPivots, 0 < kids.length) :
    newPivots.flatten.length =
      (newPivots.map fun kids => kids.length - 1).sum + newPivots.length := by
  induction newPivots with
  | nil => rfl
  | cons kids more ih =>
      obtain ⟨some, others⟩ := List.forall_mem_cons.mp nonempty
      rw [List.flatten_cons, List.length_append, ih others, List.map_cons, List.sum_cons,
        List.length_cons]
      omega

variable (results : SplitResults page newPivots oldPivots)

include results

theorem rowOf_replaced {change : SlicePageMap × (Slice × UInt32)}
    (member : change ∈ newPivots.zip oldPivots) (isKey : change.2.1 = item.1) :
    rowOf newPivots oldPivots item = change.1 := by
  have isOld : (newPivots.zip oldPivots).map Prod.snd = oldPivots :=
    List.map_snd_zip results.sameLength.ge
  have distinct := results.distinct
  rw [← isOld, List.map_map] at distinct
  cases found : (newPivots.zip oldPivots).find? fun change => change.2.1 = item.1 with
  | none => exact absurd (decide_eq_true isKey) (List.find?_eq_none.mp found change member)
  | some other =>
      have otherKey : other.2.1 = item.1 := by simpa using List.find?_some found
      have same : other = change := List.inj_on_of_nodup_map distinct
        (List.mem_of_find?_eq_some found) member (otherKey.trans isKey.symm)
      rw [rowOf, found, same]

theorem rowOf_cases (item : Slice × UInt32) :
    rowOf newPivots oldPivots item = [item] ∨
      ∃ change ∈ newPivots.zip oldPivots, change.2.1 = item.1 ∧
        rowOf newPivots oldPivots item = change.1 := by
  by_cases stays : item.1 ∈ oldPivots.map Prod.fst
  · have isOld : (newPivots.zip oldPivots).map Prod.snd = oldPivots :=
      List.map_snd_zip results.sameLength.ge
    rw [← isOld, List.map_map] at stays
    obtain ⟨change, member, isKey⟩ := List.mem_map.mp stays
    exact .inr ⟨change, member, isKey, rowOf_replaced results member isKey⟩
  · exact .inl (rowOf_kept stays)

theorem rowOf_head (item : Slice × UInt32) :
    (rowOf newPivots oldPivots item).head?.map Prod.fst = some item.1 := by
  rcases rowOf_cases results item with stays | ⟨change, member, isKey, isRow⟩
  · rw [stays]
    rfl
  · rw [isRow, results.starts change member, isKey]

theorem rowOf_ascending (item : Slice × UInt32) :
    Lib.Ascending (rowOf newPivots oldPivots item) := by
  rcases rowOf_cases results item with stays | ⟨change, member, -, isRow⟩
  · rw [stays]
    exact List.pairwise_singleton _ _
  · rw [isRow]
    exact results.ascending _ (List.of_mem_zip member).1

/-- The new entries of an entry are not below it. -/
theorem rowOf_lower {kid : Slice × UInt32} (isKid : kid ∈ rowOf newPivots oldPivots item) :
    item.1 ≤ kid.1 := by
  have ascending := rowOf_ascending results item
  have head := rowOf_head results item
  cases isRow : rowOf newPivots oldPivots item with
  | nil =>
      rw [isRow] at isKid
      cases isKid
  | cons first others =>
      rw [isRow] at isKid ascending head
      have isFirst : first.1 = item.1 := Option.some.inj head
      rcases List.mem_cons.mp isKid with rfl | later
      · exact isFirst.ge
      · exact isFirst ▸ ((List.pairwise_cons.mp ascending).1 kid later).le

/-- The new entries of an entry are below the next one. -/
theorem rowOf_upper {kid : Slice × UInt32} (isKid : kid ∈ rowOf newPivots oldPivots item)
    {other : Slice} (isOther : other ∈ page.keys) (less : item.1 < other) : kid.1 < other := by
  rcases rowOf_cases results item with stays | ⟨change, member, isKey, isRow⟩
  · rw [stays, List.mem_singleton] at isKid
    exact isKid ▸ less
  · rw [isRow] at isKid
    exact results.inside change member other isOther (isKey ▸ less) kid isKid

theorem substitute_ascending (wellFormed : WellFormed page) :
    Lib.Ascending (substitute page newPivots oldPivots) := by
  refine List.pairwise_flatMap.mpr ⟨fun item _ => rowOf_ascending results item, ?_⟩
  refine List.Pairwise.imp_of_mem ?_ (index_ascending wellFormed)
  intro front behind _ isBehind less first isFirst second isSecond
  have isKey : behind.1 ∈ page.keys := keys_index page ▸ List.mem_map_of_mem isBehind
  exact (rowOf_upper results isFirst isKey less).trans_le (rowOf_lower results isSecond)

theorem flatMap_rowOf_old :
    oldPivots.flatMap (rowOf newPivots oldPivots) = newPivots.flatten := by
  have isOld : (newPivots.zip oldPivots).map Prod.snd = oldPivots :=
    List.map_snd_zip results.sameLength.ge
  have isNew : (newPivots.zip oldPivots).map Prod.fst = newPivots :=
    List.map_fst_zip results.sameLength.le
  calc oldPivots.flatMap (rowOf newPivots oldPivots)
    _ = (newPivots.zip oldPivots).flatMap (fun change => rowOf newPivots oldPivots change.2) :=
      (congrArg (List.flatMap (rowOf newPivots oldPivots)) isOld).symm.trans
        (List.flatMap_map ..)
    _ = (newPivots.zip oldPivots).flatMap Prod.fst :=
      List.flatMap_congr fun change member => rowOf_replaced results member rfl
    _ = newPivots.flatten := by rw [List.flatMap_def, isNew]

theorem replaced_perm (wellFormed : WellFormed page) :
    (page.index.filter fun item => item.1 ∈ oldPivots.map Prod.fst).Perm oldPivots := by
  have distinct : page.index.Nodup := List.Nodup.of_map Prod.fst
    ((keys_index page).symm ▸ wellFormed.increasing.imp ne_of_lt)
  refine (List.perm_ext_iff_of_nodup (distinct.filter _)
    (List.Nodup.of_map Prod.fst results.distinct)).mpr fun item => ?_
  rw [List.mem_filter, decide_eq_true_eq]
  constructor
  · rintro ⟨isItem, isKey⟩
    obtain ⟨old, isOld, sameKey⟩ := List.mem_map.mp isKey
    have sameChild := (index_ascending wellFormed).value_eq
      (show (item.1, old.2) ∈ page.index from sameKey ▸ results.present old isOld) isItem
    have same : old = item := Prod.ext sameKey sameChild
    exact same ▸ isOld
  · intro isOld
    exact ⟨results.present item isOld, List.mem_map_of_mem isOld⟩

/-- The entries that are not replaced, and those that take the place of the others. -/
theorem substitute_perm (wellFormed : WellFormed page) :
    (substitute page newPivots oldPivots).Perm
      (page.index.filter (fun item => item.1 ∉ oldPivots.map Prod.fst) ++
        newPivots.flatten) := by
  have parted := List.filter_append_perm
    (fun item : Slice × UInt32 => decide (item.1 ∈ oldPivots.map Prod.fst)) page.index
  refine (parted.symm.flatMap_right _).trans ?_
  rw [List.flatMap_append, flatMap_rowOf_kept]
  refine List.perm_append_comm.trans (List.Perm.append_left _ ?_)
  exact flatMap_rowOf_old results ▸ (replaced_perm results wellFormed).flatMap_right _

theorem mem_substitute (wellFormed : WellFormed page) {item : Slice × UInt32} :
    item ∈ substitute page newPivots oldPivots ↔
      (item ∈ page.index ∧ item.1 ∉ oldPivots.map Prod.fst) ∨ ∃ kids ∈ newPivots, item ∈ kids := by
  rw [(substitute_perm results wellFormed).mem_iff, List.mem_append, List.mem_filter,
    List.mem_flatten, decide_eq_true_eq]

theorem SplitResults.nonempty {kids : SlicePageMap} (isKids : kids ∈ newPivots) :
    0 < kids.length := by
  have isNew : (newPivots.zip oldPivots).map Prod.fst = newPivots :=
    List.map_fst_zip results.sameLength.le
  rw [← isNew] at isKids
  obtain ⟨change, isChange, rfl⟩ := List.mem_map.mp isKids
  refine List.length_pos_iff.mpr fun none => ?_
  have start := results.starts change isChange
  rw [none] at start
  cases start

/-- Every replaced entry gives way to one entry and those that its row has more. -/
theorem substitute_length (wellFormed : WellFormed page) :
    (substitute page newPivots oldPivots).length =
      page.itemNum + calculateNumber newPivots oldPivots := by
  have parted := List.length_eq_length_filter_add
    (l := page.index) (fun item => decide (item.1 ∈ oldPivots.map Prod.fst))
  have kept : (page.index.filter fun item => !decide (item.1 ∈ oldPivots.map Prod.fst)) =
      page.index.filter fun item => item.1 ∉ oldPivots.map Prod.fst :=
    List.filter_congr fun item _ => decide_not.symm
  rw [index_length, (replaced_perm results wellFormed).length_eq, kept] at parted
  have sizes : newPivots.flatten.length =
      calculateNumber newPivots oldPivots + newPivots.length := by
    cases isOld : oldPivots with
    | nil =>
        have noPivot : newPivots = [] :=
          List.eq_nil_of_length_eq_zero (by rw [results.sameLength, isOld]; rfl)
        rw [noPivot]
        rfl
    | cons =>
        exact flatten_length fun kids member => results.nonempty member
  rw [(substitute_perm results wellFormed).length_eq, List.length_append, sizes,
    results.sameLength]
  omega

/-- The pivots that are distributed are those of the page, with the replaced ones
substituted. -/
theorem splitPivots_eq (wellFormed : WellFormed page) :
    splitPivots page newPivots oldPivots = substitute page newPivots oldPivots := by
  have kept : (((List.range page.itemNum).filter fun offset =>
      page.readPivotAtOffset offset ∉ oldPivots.map Prod.fst).map fun offset =>
        (page.readPivotAtOffset offset, page.readChildAtOffset offset)) =
      page.index.filter fun item => item.1 ∉ oldPivots.map Prod.fst := by
    rw [Page.index, List.filter_map]
    rfl
  have keptAscending := (index_ascending wellFormed).sublist
    (List.filter_sublist (p := fun item => item.1 ∉ oldPivots.map Prod.fst))
  unfold splitPivots
  simp only
  rw [kept, SlicePageMap.assign_nil keptAscending]
  refine Lib.Ascending.eq_of_keys (SlicePageMap.mergeAll_ascending keptAscending _)
    (substitute_ascending results wellFormed) (fun item member => ?_) (fun item member => ?_)
  · rw [mem_substitute results wellFormed]
    exact (mem_mergeAll member).imp_left fun stays =>
      ⟨(List.mem_filter.mp stays).1, of_decide_eq_true (List.mem_filter.mp stays).2⟩
  · rw [SlicePageMap.mem_keys_mergeAll]
    rcases (mem_substitute results wellFormed).mp member with ⟨isOld, stays⟩ | ⟨kids, isKids, isKid⟩
    · exact .inl (List.mem_map_of_mem (List.mem_filter.mpr ⟨isOld, decide_eq_true stays⟩))
    · exact .inr ⟨kids, isKids, List.mem_map_of_mem isKid⟩

end substitute

/-! ## The pages of a split -/

section split

variable {keySize : Nat} {page : Page} {newPivots : List SlicePageMap}
  {oldPivots : List (Slice × UInt32)} (wellFormed : WellFormed page)
  (fixed : FixedKeys keySize page) (results : SplitResults page newPivots oldPivots)
  (sizes : ∀ kids ∈ newPivots, ∀ kid ∈ kids, kid.1.length = keySize)
  (several : 2 ≤ (substitute page newPivots oldPivots).length)

include results

include sizes in
theorem SplitResults.matched : Matched keySize page newPivots oldPivots where
  sameLength := results.sameLength
  nonempty _ member := List.ne_nil_of_length_pos (results.nonempty member)
  distinct := results.distinct
  present old isOld := keys_index page ▸ List.mem_map_of_mem (results.present old isOld)
  sameSize := sizes

include wellFormed fixed sizes several

/-- The two roundings fit together: the even shares do not take all entries. -/
theorem shares_leave :
    (splitNum page newPivots oldPivots - 1) *
        pageItemSize (substitute page newPivots oldPivots).length
          (splitNum page newPivots oldPivots) <
      (substitute page newPivots oldPivots).length := by
  have matched := results.matched sizes
  have number := substitute_length results wellFormed
  have fewer := splitPivots_le_capacity fixed matched
  rw [splitPivots_eq results wellFormed] at fewer
  generalize (substitute page newPivots oldPivots).length = entryNum at *
  rcases Nat.lt_or_ge 2 (splitNum page newPivots oldPivots) with more | two
  · have isSplit : splitNum page newPivots oldPivots =
        equalSplitInternalPage page newPivots oldPivots := by
      unfold splitNum at more ⊢
      omega
    have replaced : oldPivots ≠ [] := by
      rintro rfl
      rw [isSplit] at more
      exact absurd more (show ¬ 2 < 1 by decide)
    have positive : 0 < capacity keySize :=
      (matched.itemNum_pos replaced).trans_le fixed.itemNum_le
    have share : pageItemSize entryNum (splitNum page newPivots oldPivots) ≤ capacity keySize := by
      refine Nat.lt_succ_iff.mp ((Nat.div_lt_iff_lt_mul (by omega)).mpr ?_)
      rw [Nat.mul_comm] at fewer
      rw [Nat.succ_mul]
      omega
    have rounded : (splitNum page newPivots oldPivots) * capacity keySize ≤
        entryNum + capacity keySize - 1 := by
      rw [isSplit, equalSplitInternalPage_eq fixed matched replaced, Nat.add_comm _ page.itemNum,
        ← number]
      exact Nat.div_mul_le_self ..
    calc (splitNum page newPivots oldPivots - 1) *
          pageItemSize entryNum (splitNum page newPivots oldPivots)
      _ ≤ (splitNum page newPivots oldPivots - 1) * capacity keySize :=
        Nat.mul_le_mul_left _ share
      _ < entryNum := by
        rw [Nat.sub_mul, Nat.one_mul]
        omega
  · have isTwo : splitNum page newPivots oldPivots = 2 :=
      Nat.le_antisymm two (Nat.le_max_left ..)
    rw [isTwo, pageItemSize]
    omega

end split

/-- What a split is to make of a page: pages with an entry at least, which have the entries
of the page with the replaced ones substituted, in order, and a guard for each of them. -/
structure SplitInto (page : Page) (newPivots : List SlicePageMap)
    (oldPivots : List (Slice × UInt32)) (pages : List Page) (guards : List Slice) : Prop where
  pageNum : pages.length = splitNum page newPivots oldPivots
  filled : ∀ part ∈ pages, 0 < part.itemNum
  entries : (pages.map Page.index).flatten = substitute page newPivots oldPivots
  guardNum : guards.length = splitNum page newPivots oldPivots
  isGuard : guards = pages.map fun part => part.readPivotAtOffset 0

section split

variable {keySize : Nat} {page : Page} {newPivots : List SlicePageMap}
  {oldPivots : List (Slice × UInt32)} (wellFormed : WellFormed page)
  (fixed : FixedKeys keySize page) (results : SplitResults page newPivots oldPivots)
  (sizes : ∀ kids ∈ newPivots, ∀ kid ∈ kids, kid.1.length = keySize)
  (several : 2 ≤ (substitute page newPivots oldPivots).length) {newPages : List Nat}
  (enough : newPages.length + 1 = splitNum page newPivots oldPivots) {pages : List Page}
  {guards : List Slice}
  (done : treeSplitInternalPage page newPivots oldPivots newPages = some (pages, guards))

include wellFormed results several enough

theorem share_positive :
    0 < pageItemSize (splitPivots page newPivots oldPivots).length (newPages.length + 1) := by
  rw [splitPivots_eq results wellFormed]
  exact Nat.div_pos (by omega) (Nat.succ_pos _)

/-- With consecutive pages it is the split of `splitInternalPage`. -/
theorem treeSplitInternalPage_eq (newId : Nat)
    (consecutive : newPages = (List.range (splitNum page newPivots oldPivots - 1)).map
      fun index => newId + index) :
    treeSplitInternalPage page newPivots oldPivots newPages =
      splitInternalPage page newPivots oldPivots newId := by
  have atLeast : 2 ≤ splitNum page newPivots oldPivots := Nat.le_max_left ..
  have ascending : Lib.Ascending (splitPivots page newPivots oldPivots) :=
    (splitPivots_eq results wellFormed).symm ▸ substitute_ascending results wellFormed
  have isNew : newPages.map allocate = (List.range (splitNum page newPivots oldPivots - 1)).map
      fun index => allocate (newId + index) := by
    rw [consecutive, List.map_map]
    rfl
  unfold treeSplitInternalPage splitInternalPage
  rw [distributeInTurn_eq ascending (List.ne_nil_of_length_pos (by omega))
    (share_positive wellFormed results several enough), isNew]

include done

theorem split_spec : pages.map Page.index =
      Lib.shares (pageItemSize (splitPivots page newPivots oldPivots).length
        (newPages.length + 1)) newPages.length (splitPivots page newPivots oldPivots) ∧
    guards = (pages.map Page.index).flatMap (fun share => (share.take 1).map Prod.fst) ∧
    ∀ part ∈ pages, WellFormed part ∧ part.isLeaf = false :=
  distributeInTurn_spec
    ((splitPivots_eq results wellFormed).symm ▸ substitute_ascending results wellFormed)
    (share_positive wellFormed results several enough) done

include fixed sizes

theorem splitInto : SplitInto page newPivots oldPivots pages guards := by
  obtain ⟨indexes, isGuards, -⟩ := split_spec wellFormed results several enough done
  have positive := share_positive wellFormed results several enough
  have leave := shares_leave wellFormed fixed results sizes several
  rw [← enough, Nat.add_sub_cancel, ← splitPivots_eq results wellFormed] at leave
  have pageNum : pages.length = splitNum page newPivots oldPivots := by
    rw [← List.length_map Page.index, indexes, Lib.shares_length, enough]
  have filled : ∀ part ∈ pages, 0 < part.itemNum := by
    intro part member
    have isShare := List.mem_map_of_mem (f := Page.index) member
    rw [indexes] at isShare
    have some := Lib.shares_filled positive leave isShare
    rw [← index_length]
    exact List.length_pos_iff.mpr some
  have guardEq : guards = pages.map fun part => part.readPivotAtOffset 0 := by
    rw [isGuards, firsts_eq, List.filter_eq_self.mpr]
    exact fun part member => decide_eq_true (filled part member)
  exact {
    pageNum := pageNum
    filled := filled
    entries := by rw [indexes, Lib.shares_flatten, splitPivots_eq results wellFormed]
    guardNum := by rw [guardEq, List.length_map, pageNum]
    isGuard := guardEq }

end split

/-! ## The page above -/

section update

variable {page after : Page}

/-- A new child for a pivot of the page. -/
theorem updateChild_index (wellFormed : WellFormed page) (isIndex : page.isLeaf = false)
    {pivot : Slice} (present : pivot ∈ page.keys) (child : UInt32) :
    WellFormed (page.updateChild pivot child) ∧ (page.updateChild pivot child).isLeaf = false ∧
      (page.updateChild pivot child).index = Lib.place pivot child page.index := by
  obtain ⟨offset, isOffset, isPivot⟩ := List.getElem_of_mem present
  rw [Page.keys_length] at isOffset
  rw [keys_getElem] at isPivot
  have found : page.binSearch pivot = offset := isPivot ▸ binSearch_of_mem wellFormed isOffset
  have replaced := updateChild_replaced wellFormed.toLaid isIndex (Nat.zero_lt_of_lt isOffset)
    pivot child
  rw [found, isPivot] at replaced
  have isEntry : offset < page.entries.length := by simpa using isOffset
  have entries := replaced.entries_eq wellFormed.spaced isOffset
  rw [wellFormed.ascending.set_eq_place isEntry (by rw [Page.entries_getElem, isPivot])] at entries
  have stillIndex := replaced.isLeaf.trans isIndex
  refine ⟨⟨replaced.laid_of isOffset wellFormed.toLaid, ?_⟩, stillIndex, ?_⟩
  · rw [entries]
    exact wellFormed.ascending.place
  · rw [entries_index isIndex, entries_index stillIndex, place_index] at entries
    exact entry_injective.list_map entries

variable {newPivots : List SlicePageMap} {oldPivots : List (Slice × UInt32)}

theorem SplitResults.starts_with (results : SplitResults page newPivots oldPivots)
    {change : SlicePageMap × (Slice × UInt32)} (member : change ∈ newPivots.zip oldPivots) :
    ∃ child kids, change.1 = (change.2.1, child) :: kids := by
  have start := results.starts change member
  cases isKids : change.1 with
  | nil =>
      rw [isKids] at start
      cases start
  | cons first kids =>
      rw [isKids] at start
      have isFirst : first.1 = change.2.1 := Option.some.inj start
      exact ⟨first.2, kids, isFirst ▸ rfl⟩

/-- The first loop of `UpdateOrRewritePivots` gives the pivots their new children. -/
theorem updateChildren_index {current : Page} (wellFormed : WellFormed page)
    (results : SplitResults page newPivots oldPivots) (currentFormed : WellFormed current)
    (isIndex : current.isLeaf = false) (sameKeys : ∀ key, key ∈ current.keys ↔ key ∈ page.keys)
    {changes : List (SlicePageMap × (Slice × UInt32))}
    (subset : changes ⊆ newPivots.zip oldPivots)
    (settled : ∀ item ∈ current.index, item ∈ substitute page newPivots oldPivots ∨
      (item ∈ page.index ∧ ∃ change ∈ changes, change.2.1 = item.1))
    (done : changes.foldl (fun page change =>
      match change.1 with
      | [] => page
      | first :: _ =>
          if change.2.2 = first.2 then page else page.updateChild first.1 first.2) current =
        after) :
    WellFormed after ∧ after.isLeaf = false ∧ (∀ key, key ∈ after.keys ↔ key ∈ page.keys) ∧
      ∀ item ∈ after.index, item ∈ substitute page newPivots oldPivots := by
  induction changes generalizing current with
  | nil =>
      cases done
      refine ⟨currentFormed, isIndex, sameKeys, fun item member => ?_⟩
      refine (settled item member).resolve_right fun left => ?_
      obtain ⟨-, change, isChange, -⟩ := left
      cases isChange
  | cons change changes ih =>
      obtain ⟨member, others⟩ := List.cons_subset.mp subset
      obtain ⟨child, kids, isKids⟩ := results.starts_with member
      have isOld : change.2 ∈ page.index := results.present _ (List.of_mem_zip member).2
      have isFirst : (change.2.1, child) ∈ substitute page newPivots oldPivots :=
        (mem_substitute results wellFormed).mpr (.inr ⟨change.1, (List.of_mem_zip member).1,
          isKids ▸ List.mem_cons_self⟩)
      rw [List.foldl_cons] at done
      simp only [isKids] at done
      split_ifs at done with same
      · refine ih currentFormed isIndex sameKeys others (fun item isItem => ?_) done
        rcases settled item isItem with known | ⟨onPage, other, isOther, isKey⟩
        · exact .inl known
        · rcases List.mem_cons.mp isOther with rfl | later
          · have sameChild := (index_ascending wellFormed).value_eq
              (show (item.1, other.2.2) ∈ page.index from isKey ▸ isOld) onPage
            have isItem : item = (other.2.1, child) :=
              Prod.ext isKey.symm (sameChild.symm.trans same)
            exact .inl (isItem ▸ isFirst)
          · exact .inr ⟨onPage, other, later, isKey⟩
      · have present : change.2.1 ∈ current.keys :=
          (sameKeys _).mpr (keys_index page ▸ List.mem_map_of_mem isOld)
        obtain ⟨nextFormed, nextIndex, placed⟩ :=
          updateChild_index currentFormed isIndex present child
        refine ih nextFormed nextIndex (fun key => ?_) others (fun item isItem => ?_) done
        · rw [← sameKeys, ← keys_index, placed, Lib.mem_keys_place, keys_index]
          exact or_iff_right_of_imp fun isKey => isKey ▸ present
        · rw [placed] at isItem
          rcases Lib.mem_place.mp isItem with rfl | ⟨old, different⟩
          · exact .inl isFirst
          · rcases settled item old with known | ⟨onPage, other, isOther, isKey⟩
            · exact .inl known
            · rcases List.mem_cons.mp isOther with rfl | later
              · exact absurd isKey.symm different
              · exact .inr ⟨onPage, other, later, isKey⟩

/-- The pivots that are added lie between those of the page. -/
theorem addedPivots_absent (results : SplitResults page newPivots oldPivots) :
    ∀ item ∈ addedPivots newPivots oldPivots, item.1 ∉ page.keys := by
  intro item member isKey
  have added := (SlicePageMap.mem_assign member).resolve_left List.not_mem_nil
  obtain ⟨change, isChange, isKid⟩ := List.mem_flatMap.mp added
  obtain ⟨child, kids, isKids⟩ := results.starts_with isChange
  have ascending := results.ascending _ (List.of_mem_zip isChange).1
  rw [isKids] at ascending isKid
  have above : change.2.1 < item.1 := (List.pairwise_cons.mp ascending).1 item isKid
  have below := results.inside change isChange item.1 isKey above item
    (isKids ▸ List.mem_cons_of_mem _ isKid)
  exact lt_irrefl _ below

theorem addedPivots_ascending : Lib.Ascending (addedPivots newPivots oldPivots) :=
  Lib.Ascending.places .nil _

theorem kid_key (results : SplitResults page newPivots oldPivots) {kids : SlicePageMap}
    (isKids : kids ∈ newPivots) {kid : Slice × UInt32} (isKid : kid ∈ kids) :
    kid.1 ∈ page.keys ∨ kid.1 ∈ (addedPivots newPivots oldPivots).map Prod.fst := by
  have isNew : (newPivots.zip oldPivots).map Prod.fst = newPivots :=
    List.map_fst_zip results.sameLength.le
  rw [← isNew] at isKids
  obtain ⟨change, isChange, rfl⟩ := List.mem_map.mp isKids
  obtain ⟨child, others, isRow⟩ := results.starts_with isChange
  have isOld := results.present _ (List.of_mem_zip isChange).2
  have isKey : change.2.1 ∈ page.keys := keys_index page ▸ List.mem_map_of_mem isOld
  rw [isRow] at isKid
  rcases List.mem_cons.mp isKid with rfl | later
  · exact .inl isKey
  · refine .inr (Lib.mem_keys_places.mpr (.inr (List.mem_map_of_mem ?_)))
    exact List.mem_flatMap.mpr ⟨change, isChange, isRow ▸ later⟩

/-- The page above has its entries with the replaced ones substituted. -/
theorem updateOrRewritePivots_index (wellFormed : WellFormed page)
    (isIndex : page.isLeaf = false) (results : SplitResults page newPivots oldPivots)
    (done : updateOrRewritePivots page newPivots oldPivots = some after) :
    WellFormed after ∧ after.isLeaf = false ∧
      after.index = substitute page newPivots oldPivots := by
  have settled : ∀ item ∈ page.index, item ∈ substitute page newPivots oldPivots ∨
      (item ∈ page.index ∧ ∃ change ∈ newPivots.zip oldPivots, change.2.1 = item.1) := by
    intro item member
    by_cases stays : item.1 ∈ oldPivots.map Prod.fst
    · have isOld : (newPivots.zip oldPivots).map Prod.snd = oldPivots :=
        List.map_snd_zip results.sameLength.ge
      rw [← isOld, List.map_map] at stays
      exact .inr ⟨member, List.mem_map.mp stays⟩
    · exact .inl ((mem_substitute results wellFormed).mpr (.inl ⟨member, stays⟩))
  obtain ⟨updatedFormed, updatedIndex, sameKeys, known⟩ := updateChildren_index wellFormed results
    wellFormed isIndex (fun _ => Iff.rfl) (List.Subset.refl _) settled rfl
  have absent : ∀ item ∈ addedPivots newPivots oldPivots, item.1 ∉ page.keys :=
    addedPivots_absent results
  obtain ⟨afterFormed, afterIndex, placed⟩ := insertIndexEntries_index updatedFormed updatedIndex
    (fun item member => by
      rw [keys_index, sameKeys]
      exact absent item member)
    (addedPivots_ascending.imp ne_of_lt) done
  refine ⟨afterFormed, afterIndex, ?_⟩
  refine Lib.Ascending.eq_of_keys (index_ascending afterFormed)
    (substitute_ascending results wellFormed) (fun item member => ?_) (fun item member => ?_)
  · rw [placed] at member
    rcases (Lib.mem_places (addedPivots_ascending.imp ne_of_lt)).mp member with added | ⟨old, -⟩
    · have isTail := (SlicePageMap.mem_assign added).resolve_left List.not_mem_nil
      obtain ⟨change, isChange, isKid⟩ := List.mem_flatMap.mp isTail
      exact (mem_substitute results wellFormed).mpr (.inr ⟨change.1,
        (List.of_mem_zip isChange).1, List.mem_of_mem_tail isKid⟩)
    · exact known item old
  · rw [placed, Lib.mem_keys_places, keys_index, sameKeys]
    rcases (mem_substitute results wellFormed).mp member with ⟨isOld, -⟩ | ⟨kids, isKids, isKid⟩
    · exact .inl (keys_index page ▸ List.mem_map_of_mem isOld)
    · exact kid_key results isKids isKid

end update

/-! ## The descent -/

section descent

variable {page : Page}

theorem childIn_eq {items : SlicePageMap} (ascending : Lib.Ascending items) (key : Slice) :
    childIn items key = Lib.ownerOf reaches items key := by
  cases isItems : items with
  | nil => rfl
  | cons first others =>
      obtain ⟨place, atPlace, owner, -⟩ := ownerOf_binSearch
        (List.pairwise_map.mpr (isItems ▸ ascending)) (List.cons_ne_nil first others) key
      rw [childIn, atPlace, owner]
      rfl

theorem childFor_eq (wellFormed : WellFormed page) (nonempty : 0 < page.itemNum) (key : Slice) :
    some (page.childFor key) = Lib.ownerOf reaches page.index key := by
  have inside := binSearch_inside nonempty key
  rw [← childIn_eq (index_ascending wellFormed), childIn, keys_index, ← Page.binSearch_eq]
  simp [Page.index, inside, Page.childFor]

theorem reaches_ascending {child : Type} {items : List (Slice × child)}
    (ascending : Lib.Ascending items) (key : Slice) :
    items.Pairwise fun front behind => reaches behind.1 key = true → reaches front.1 key = true :=
  ascending_at (List.pairwise_map.mpr ascending) key reaches_falling

/-- The descent through a row of pages, with their first pivots, ends where the one through
their entries in a row does. -/
theorem ownerOf_pages {ids : List UInt32} {store : UInt32 → Page}
    (formed : ∀ pgId ∈ ids, WellFormed (store pgId) ∧ 0 < (store pgId).itemNum)
    (ascending : Lib.Ascending (ids.flatMap fun pgId => (store pgId).index)) (key : Slice) :
    (Lib.ownerOf reaches
        (ids.map fun pgId => ((store pgId).readPivotAtOffset 0, pgId)) key).map
      (fun pgId => (store pgId).childFor key) =
    Lib.ownerOf reaches (ids.flatMap fun pgId => (store pgId).index) key := by
  have isRow : (ids.flatMap fun pgId => (store pgId).index) =
      (ids.map fun pgId => ((store pgId).readPivotAtOffset 0, pgId)).flatMap
        fun owner => (store owner.2).index := by rw [List.flatMap_map]
  rw [isRow] at ascending ⊢
  rw [Lib.ownerOf_flatMap _ ?_ (reaches_ascending ascending key), Lib.ownerOf_map
    (fun pgId => (store pgId).index), Option.bind_map]
  · cases owned : Lib.ownerOf reaches
        (ids.map fun pgId => ((store pgId).readPivotAtOffset 0, pgId)) key with
    | none => rfl
    | some pgId =>
        have member := Lib.mem_of_ownerOf owned
        rw [List.map_map] at member
        obtain ⟨wellFormed, nonempty⟩ := formed pgId (by simpa using member)
        exact childFor_eq wellFormed nonempty key
  · intro owner member
    obtain ⟨pgId, isId, rfl⟩ := List.mem_map.mp member
    have nonempty := (formed pgId isId).2
    obtain ⟨first, others, isIndex⟩ := List.exists_cons_of_length_pos
      (show 0 < (store pgId).index.length by rwa [index_length])
    rw [isIndex, readPivotAtOffset_zero isIndex]
    rfl

end descent

/-! ## Splits keep the routes -/

/-- The pages as they are when the kept one has been installed. -/
def installKept (page : Page) : List Page → List Page
  | [] => []
  | extraPage :: others => installNewPage page extraPage :: others

/-- Pages are found under their ids. -/
def StoredAs (store : UInt32 → Page) (pgIds : List Nat) (pages : List Page) : Prop :=
  (pgIds.map UInt32.ofNat).map store = pages

/-- The descent from a page to the pages below it ends at the child to which one page with
all entries of these would lead the key. -/
def LeadsAs (above : Page) (store : UInt32 → Page) (whole : SlicePageMap) (key : Slice) : Prop :=
  childIn whole key = some ((store (above.childFor key)).childFor key)

theorem installNewPage_index {selfPage extraPage : Page}
    (sameKind : extraPage.isLeaf = selfPage.isLeaf) :
    (installNewPage selfPage extraPage).index = extraPage.index := by
  unfold installNewPage
  rw [← sameKind]
  rfl

theorem installNewPage_wellFormed {selfPage extraPage : Page}
    (sameKind : extraPage.isLeaf = selfPage.isLeaf) (wellFormed : WellFormed extraPage) :
    WellFormed (installNewPage selfPage extraPage) := by
  unfold installNewPage
  rw [← sameKind]
  exact ⟨⟨wellFormed.freeStart, wellFormed.room, wellFormed.tiles⟩, wellFormed.ascending⟩

section routes

variable {page : Page} {newPivots : List SlicePageMap} {oldPivots : List (Slice × UInt32)}
  {pages : List Page} {guards : List Slice} (wellFormed : WellFormed page)
  (results : SplitResults page newPivots oldPivots)
  (split : SplitInto page newPivots oldPivots pages guards)

include wellFormed results split

theorem guards_increasing : guards.Pairwise (· < ·) := by
  have ascending := substitute_ascending results wellFormed
  rw [← split.entries] at ascending
  obtain ⟨-, apart⟩ := List.pairwise_flatten.mp ascending
  rw [split.isGuard, List.pairwise_map]
  refine List.Pairwise.imp_of_mem ?_ (List.pairwise_map.mp apart)
  intro front behind isFront isBehind less
  have first : ∀ part ∈ pages, ∃ item ∈ part.index, item.1 = part.readPivotAtOffset 0 := by
    intro part member
    obtain ⟨item, others, isIndex⟩ := List.exists_cons_of_length_pos
      (show 0 < part.index.length by
        rw [index_length]
        exact split.filled part member)
    exact ⟨item, isIndex ▸ List.mem_cons_self, (readPivotAtOffset_zero isIndex).symm⟩
  obtain ⟨frontItem, onFront, isFrontPivot⟩ := first front isFront
  obtain ⟨behindItem, onBehind, isBehindPivot⟩ := first behind isBehind
  rw [← isFrontPivot, ← isBehindPivot]
  exact less frontItem onFront behindItem onBehind

theorem zip_guards_ascending {ids : List UInt32}
    (sameLength : ids.length = splitNum page newPivots oldPivots) :
    Lib.Ascending (guards.zip ids) := by
  refine List.pairwise_map.mp ?_
  rw [List.map_fst_zip (by rw [split.guardNum, sameLength])]
  exact guards_increasing wellFormed results split

theorem leads_of_owner {ids : List UInt32} {store : UInt32 → Page} {parts : List Page}
    (stored : ids.map store = parts) (sameIndex : parts.map Page.index = pages.map Page.index)
    (formed : ∀ part ∈ parts, WellFormed part) {key : Slice} {child : UInt32}
    (led : Lib.ownerOf reaches (guards.zip ids) key = some child) :
    childIn (substitute page newPivots oldPivots) key =
      some ((store child).childFor key) := by
  subst stored
  have ascending := substitute_ascending results wellFormed
  have isWhole : substitute page newPivots oldPivots =
      ids.flatMap fun pgId => (store pgId).index := by
    rw [← split.entries, ← sameIndex, List.map_map, List.flatMap_def]
    rfl
  have isRow : guards.zip ids = ids.map fun pgId => ((store pgId).readPivotAtOffset 0, pgId) := by
    rw [split.isGuard, map_readPivotAtOffset_zero, ← sameIndex, ← map_readPivotAtOffset_zero,
      List.map_map]
    have zipped := @List.zip_map' _ _ _
      (fun pgId => (store pgId).readPivotAtOffset 0) id ids
    rwa [List.map_id] at zipped
  have formedHere : ∀ pgId ∈ ids, WellFormed (store pgId) ∧ 0 < (store pgId).itemNum := by
    intro pgId member
    refine ⟨formed _ (List.mem_map_of_mem member), ?_⟩
    have onPage : (store pgId).index ∈ pages.map Page.index :=
      sameIndex ▸ List.mem_map_of_mem (List.mem_map_of_mem member)
    obtain ⟨part, isPart, sameEntries⟩ := List.mem_map.mp onPage
    rw [← index_length, ← sameEntries, index_length]
    exact split.filled part isPart
  rw [isWhole] at ascending ⊢
  rw [childIn_eq ascending, ← ownerOf_pages formedHere ascending, ← isRow, led]
  rfl

end routes

section parent

variable {parent after : Page} {parentNew : List SlicePageMap}
  {parentOld : List (Slice × UInt32)}

/-- The search of the updated page goes on in the row of the entry where the one of the old
page has ended. -/
theorem updated_childFor (wellFormed : WellFormed parent) (isIndex : parent.isLeaf = false)
    (results : SplitResults parent parentNew parentOld) (nonempty : 0 < parent.itemNum)
    (done : updateOrRewritePivots parent parentNew parentOld = some after) (key : Slice) :
    some (after.childFor key) = Lib.ownerOf reaches (rowOf parentNew parentOld
      (parent.readPivotAtOffset (parent.binSearch key), parent.childFor key)) key := by
  obtain ⟨afterFormed, -, isSubstitute⟩ :=
    updateOrRewritePivots_index wellFormed isIndex results done
  have inside := binSearch_inside nonempty key
  have ascending := index_ascending wellFormed
  have afterAscending := index_ascending afterFormed
  have owned : Lib.ownerOf reaches (parent.index.map fun item => (item.1, item)) key =
      some (parent.readPivotAtOffset (parent.binSearch key), parent.childFor key) := by
    obtain ⟨place, atPlace, owner, -⟩ := @ownerOf_binSearch _
      (parent.index.map fun item => (item.1, item)) (by
        rw [List.map_map]
        exact List.pairwise_map.mpr ascending) (by
        refine List.ne_nil_of_length_pos ?_
        rwa [List.length_map, index_length]) key
    have sameKeys : (parent.index.map fun item => (item.1, item)).map Prod.fst = parent.keys := by
      rw [List.map_map, ← keys_index]
      rfl
    rw [sameKeys, ← Page.binSearch_eq] at atPlace
    rw [owner]
    simp only [Page.index, List.map_map, List.getElem?_map,
      List.getElem?_range inside] at atPlace
    cases atPlace
    rfl
  have positive : 0 < after.itemNum := by
    rw [← index_length, isSubstitute, substitute_length results wellFormed]
    omega
  have isRow : substitute parent parentNew parentOld =
      (parent.index.map fun item => (item.1, item)).flatMap
        fun owner => rowOf parentNew parentOld owner.2 := by
    rw [List.flatMap_map]
    rfl
  rw [childFor_eq afterFormed positive]
  rw [isSubstitute, isRow] at afterAscending ⊢
  rw [Lib.ownerOf_flatMap _ ?_ (reaches_ascending afterAscending key),
    Lib.ownerOf_map (rowOf parentNew parentOld), owned]
  · rfl
  · intro owner member
    obtain ⟨item, -, rfl⟩ := List.mem_map.mp member
    exact rowOf_head results item

end parent

/-- Once `UpdateOrRewritePivots` has put the result of the split, and perhaps of others, on
the page above, the keys of the page are led as before, and those of children that have not
been split to the same child. -/
def RoutesThroughParent (page : Page) (newPages : List Nat) (pages : List Page)
    (guards : List Slice) (whole : SlicePageMap) : Prop :=
  ∀ (parent after : Page) (parentNew : List SlicePageMap) (parentOld : List (Slice × UInt32))
    (old : Slice × UInt32), WellFormed parent → parent.isLeaf = false →
    SplitResults parent parentNew parentOld →
    (splitResult page.pageId newPages guards, old) ∈ parentNew.zip parentOld →
    updateOrRewritePivots parent parentNew parentOld = some after →
    ∀ store, StoredAs store (page.pageId :: newPages) (installKept page pages) → ∀ key,
      (parent.readPivotAtOffset (parent.binSearch key) = old.1 →
        LeadsAs after store whole key) ∧
      (parent.readPivotAtOffset (parent.binSearch key) ∉ parentOld.map Prod.fst →
        after.childFor key = parent.childFor key)

/-- The same when the page has been the root. -/
def RoutesThroughRoot (page : Page) (newPages : List Nat) (pages : List Page)
    (guards : List Slice) (whole : SlicePageMap) : Prop :=
  ∀ (extraPage root moved : Page) (others : List Page) (newId : Nat),
    pages = extraPage :: others →
    updateRoot page extraPage (splitResult page.pageId newPages guards) newId =
      some (root, moved) →
    ∀ store, StoredAs store (newId :: newPages) (moved :: others) → ∀ key,
      LeadsAs root store whole key

section split

variable {keySize : Nat} {page : Page} {newPivots : List SlicePageMap}
  {oldPivots : List (Slice × UInt32)} (wellFormed : WellFormed page)
  (results : SplitResults page newPivots oldPivots) {newPages : List Nat}
  (enough : newPages.length + 1 = splitNum page newPivots oldPivots) {pages : List Page}
  {guards : List Slice} (split : SplitInto page newPivots oldPivots pages guards)
  (isIndex : page.isLeaf = false)
  (formed : ∀ part ∈ pages, WellFormed part ∧ part.isLeaf = false)

include wellFormed results enough split

theorem splitResult_eq (pgId : Nat) : splitResult pgId newPages guards =
    guards.zip ((pgId :: newPages).map UInt32.ofNat) :=
  SlicePageMap.assign_nil (zip_guards_ascending wellFormed results split (by simp [enough]))

include isIndex formed

theorem routesThroughParent : RoutesThroughParent page newPages pages guards
    (substitute page newPivots oldPivots) := by
  intro parent after parentNew parentOld old parentFormed parentIndex parentResults isChange
    done store stored key
  have onParent := parentResults.present old (List.of_mem_zip isChange).2
  have nonempty : 0 < parent.itemNum := index_length parent ▸ List.length_pos_of_mem onParent
  have led := updated_childFor parentFormed parentIndex parentResults nonempty done key
  constructor
  · intro isHere
    rw [rowOf_replaced parentResults isChange isHere.symm,
      splitResult_eq wellFormed results enough split] at led
    refine leads_of_owner wellFormed results split stored ?_ ?_ led.symm
    · cases pages with
      | nil => rfl
      | cons extraPage others =>
          have kind := (formed extraPage List.mem_cons_self).2.trans isIndex.symm
          rw [installKept, List.map_cons, installNewPage_index kind, List.map_cons]
    · cases pages with
      | nil => exact fun part none => absurd none List.not_mem_nil
      | cons extraPage others =>
          obtain ⟨⟨extraFormed, extraIndex⟩, othersFormed⟩ := List.forall_mem_cons.mp formed
          exact List.forall_mem_cons.mpr
            ⟨installNewPage_wellFormed (extraIndex.trans isIndex.symm) extraFormed,
              fun part member => (othersFormed part member).1⟩
  · intro stays
    rw [rowOf_kept stays] at led
    exact Option.some.inj led

theorem routesThroughRoot : RoutesThroughRoot page newPages pages guards
    (substitute page newPivots oldPivots) := by
  intro extraPage root moved others newId isPages done store stored key
  subst isPages
  obtain ⟨⟨extraFormed, extraIndex⟩, othersFormed⟩ := List.forall_mem_cons.mp formed
  have kind := extraIndex.trans isIndex.symm
  have installedFormed := installNewPage_wellFormed kind extraFormed
  have ascending : Lib.Ascending (guards.zip ((newId :: newPages).map UInt32.ofNat)) :=
    zip_guards_ascending wellFormed results split (by simp [enough])
  unfold updateRoot at done
  rw [splitResult_eq wellFormed results enough split] at done
  obtain ⟨first, moreGuards, isGuards⟩ := List.exists_cons_of_length_pos
    (show 0 < guards.length by
      rw [split.guardNum]
      exact Nat.lt_of_lt_of_le Nat.zero_lt_two (Nat.le_max_left ..))
  simp only [isGuards, List.map_cons, List.zip_cons_cons] at done
  obtain ⟨newRoot, isRoot, isBoth⟩ := Option.map_eq_some_iff.mp done
  cases isBoth
  rw [isGuards, List.map_cons, List.zip_cons_cons] at ascending
  obtain ⟨rootFormed, -, placed⟩ := insertIndexEntries_index
    (wellFormed_pageInit page.pageId false _) rfl (fun item _ none => by
      cases none)
    (ascending.imp ne_of_lt) isRoot
  have isRow : root.index = guards.zip ((newId :: newPages).map UInt32.ofNat) := by
    rw [isGuards, List.map_cons, List.zip_cons_cons, placed]
    exact SlicePageMap.assign_nil ascending
  have positive : 0 < root.itemNum := by
    rw [← index_length, isRow, isGuards, List.map_cons, List.zip_cons_cons]
    exact Nat.succ_pos _
  have led := childFor_eq rootFormed positive key
  rw [isRow] at led
  refine leads_of_owner wellFormed results split stored ?_ ?_ led.symm
  · exact congrArg (· :: others.map Page.index) (installNewPage_index kind)
  · exact List.forall_mem_cons.mpr
      ⟨⟨⟨installedFormed.freeStart, installedFormed.room, installedFormed.tiles⟩,
        installedFormed.ascending⟩, fun part member => (othersFormed part member).1⟩

end split

/-- A split of two entries at least fills all its pages, with the entries that one page would
have, and the page above leads every key as that page would. -/
theorem internal_split_routes {keySize : Nat} {page : Page} {newPivots : List SlicePageMap}
    {oldPivots : List (Slice × UInt32)} (wellFormed : WellFormed page)
    (fixed : FixedKeys keySize page) (results : SplitResults page newPivots oldPivots)
    (sizes : ∀ kids ∈ newPivots, ∀ kid ∈ kids, kid.1.length = keySize)
    (several : 2 ≤ (substitute page newPivots oldPivots).length) {newPages : List Nat}
    (enough : newPages.length + 1 = splitNum page newPivots oldPivots) {pages : List Page}
    {guards : List Slice}
    (done : treeSplitInternalPage page newPivots oldPivots newPages = some (pages, guards)) :
    SplitInto page newPivots oldPivots pages guards ∧
      RoutesThroughParent page newPages pages guards (substitute page newPivots oldPivots) ∧
      RoutesThroughRoot page newPages pages guards (substitute page newPivots oldPivots) := by
  have split := splitInto wellFormed fixed results sizes several enough done
  obtain ⟨-, -, formed⟩ := split_spec wellFormed results several enough done
  exact ⟨split, routesThroughParent wellFormed results enough split fixed.isIndex formed,
    routesThroughRoot wellFormed results enough split fixed.isIndex formed⟩

/-- A single entry does not fill the two pages that a split makes at least. -/
theorem single_entry_leaves_page_empty : ¬ ∀ (keySize : Nat) (page : Page)
    (newPivots : List SlicePageMap) (oldPivots : List (Slice × UInt32)) (newPages : List Nat)
    (pages : List Page) (guards : List Slice), WellFormed page → FixedKeys keySize page →
      SplitResults page newPivots oldPivots →
      (∀ kids ∈ newPivots, ∀ kid ∈ kids, kid.1.length = keySize) →
      newPages.length + 1 = splitNum page newPivots oldPivots →
      treeSplitInternalPage page newPivots oldPivots newPages = some (pages, guards) →
      SplitInto page newPivots oldPivots pages guards := by
  intro always
  have isSome : (treeSplitInternalPage onePivotPage [] [] [4]).isSome = true := by decide
  obtain ⟨⟨pages, guards⟩, done⟩ := Option.isSome_iff_exists.mp isSome
  have fixed : FixedKeys 1 onePivotPage :=
    { onePivotPage_wellFormed.toLaid with
      isIndex := rfl
      sameSize := by decide }
  have untouched : SplitResults onePivotPage [] [] :=
    ⟨rfl, .nil, by simp, by simp, by simp, by simp⟩
  have split := always 1 onePivotPage [] [] [4] pages guards onePivotPage_wellFormed fixed
    untouched (by simp) (by decide) done
  have twoGuards : guards.length = 2 := split.guardNum.trans (by decide)
  have single : (treeSplitInternalPage onePivotPage [] [] [4]).map (fun parts => parts.2.length) =
      some 1 := by decide
  rw [done] at single
  exact absurd (twoGuards.symm.trans (Option.some.inj single)) (by decide)

theorem twoPivotPage_results :
    SplitResults twoPivotPage [[([7], 5), ([8], 8)]] [([7], 5)] where
  sameLength := rfl
  distinct := by decide
  present := by decide
  ascending := by
    unfold Lib.Ascending
    decide
  starts := by decide
  inside := by decide

/-- A root of two entries, one of which has given way to two. -/
theorem internal_split_routes_two : ∃ extraPage newPage guards root moved,
    treeSplitInternalPage twoPivotPage [[([7], 5), ([8], 8)]] [([7], 5)] [4] =
      some ([extraPage, newPage], guards) ∧
    updateRoot twoPivotPage extraPage (splitResult 3 [4] guards) 9 = some (root, moved) ∧
    ∀ key, LeadsAs root (fun pgId => if pgId = 9 then moved else newPage)
      (substitute twoPivotPage [[([7], 5), ([8], 8)]] [([7], 5)]) key := by
  have isSome : ((treeSplitInternalPage twoPivotPage [[([7], 5), ([8], 8)]] [([7], 5)] [4]).bind
      fun parts => parts.1.head?.bind fun extraPage =>
        updateRoot twoPivotPage extraPage (splitResult 3 [4] parts.2) 9).isSome = true := by
    decide
  obtain ⟨⟨root, moved⟩, isRoot⟩ := Option.isSome_iff_exists.mp isSome
  obtain ⟨⟨pages, guards⟩, done, further⟩ := Option.bind_eq_some_iff.mp isRoot
  obtain ⟨split, -, throughRoot⟩ := internal_split_routes twoPivotPage_wellFormed
    twoPivotPage_fixed twoPivotPage_results (by decide) (by decide) (by decide) done
  have isTwo : pages.length = 2 := split.pageNum.trans (by decide)
  obtain ⟨extraPage, newPage, rfl⟩ := List.length_eq_two.mp isTwo
  refine ⟨extraPage, newPage, guards, root, moved, done, further, fun key => ?_⟩
  exact throughRoot extraPage root moved [newPage] 9 rfl further _ (by simp [StoredAs]) key

end AhaTree.Slotted
