import AhaTree.TreePage
import AhaTree.Lib.Cut

/-!
# Routing files to child nodes

The loops that hand the files of a buffer to the nodes below it, the check that
is made before, and the descent of a scan.  `FlushFilesToChildrenNoSplit` deals
the files out to the children of a page, `DistributeFilesToNodes` to the pages
a node has been split into, and `FindChildrenNodes` is what a scan follows
later; a file is found again only if all of them agree.
-/

namespace AhaTree

/-! ## The loops of the source -/

/-- The common shape of both routing loops.  Each node takes files up to the
first one that is to be left to the next pivot, and the last node takes all
files left; before it does, an assertion compares its pivot with the first of
them. -/
def routeFiles (leaveTo : Slice → FileMetaData → Bool) :
    IndexItems → List FileMetaData → Option (List (PageId × List FileMetaData))
  | _, [] => some []
  | [], _ :: _ => some []
  | [(pivot, child)], file :: files =>
      if (Slice.compare pivot file.start).isLE then some [(child, file :: files)]
      else none
  | (_, child) :: next :: items, file :: files => do
      let routed ← routeFiles leaveTo (next :: items)
        ((file :: files).dropWhile (fun file => !leaveTo next.1 file))
      pure ((child, (file :: files).takeWhile
        (fun file => !leaveTo next.1 file)) :: routed)

/-- The test of `Node::FlushFilesToChildrenNoSplit`: a file that starts on the
next pivot or behind it is left to the next child. -/
def flushLeavesTo (nextPivot : Slice) (file : FileMetaData) : Bool :=
  (Slice.compare nextPivot file.start).isLE

/-- The test of `Node::DistributeFilesToNodes`: only a file that starts behind
the next guard is left to the next node. -/
def distributeLeavesTo (nextGuard : Slice) (file : FileMetaData) : Bool :=
  (Slice.compare nextGuard file.start).isLT

/-- `Node::FlushFilesToChildrenNoSplit`: which files are appended to the buffer
of which child. -/
def flushFilesToChildrenNoSplit (items : IndexItems)
    (files : List FileMetaData) : Option (List (PageId × List FileMetaData)) :=
  routeFiles flushLeavesTo items files

/-- `Node::DistributeFilesToNodes`: which files are added to the buffer of which
node of a split.  The guard of a node stands next to its page. -/
def distributeFilesToNodes (nodes : IndexItems)
    (files : List FileMetaData) : Option (List (PageId × List FileMetaData)) :=
  routeFiles distributeLeavesTo nodes files

/-- `BplusTreeState::FindChildrenNodes` on an index page; an empty bound is no
bound. -/
def findChildrenNodes (items : IndexItems) (low up : Slice) : List PageId :=
  let offset := if low.isEmpty then 0 else pageFindOffset items low
  if !low.isEmpty && offset == 0 && !up.isEmpty &&
      (Slice.compare up (pageReadPivotAtOffset (pivots items) 0)).isLT then []
  else
    ((items.drop offset).takeWhile
      (fun item => up.isEmpty || !(Slice.compare up item.1).isLT)).map Prod.snd

/-- The order check at the head of `FileAcrossPivots`. -/
def filesInOrder (previous : Slice) : List FileMetaData → Bool
  | [] => true
  | file :: files =>
      if !previous.isEmpty && (Slice.strcmp file.start previous).isLT then false
      else filesInOrder file.limit files

/-- What a call of `FileAcrossPivots` answers, and by how much it changes the
pin count of the page. -/
structure Across where
  across : Bool
  pinned : Int
  deriving DecidableEq, Repr

/-- The loop of `FileAcrossPivots`.  `index` is the shared loop index, which the
first pivot rewinds to `-1` and a passed pivot by one, before `index++`; the
page has been pinned once. -/
def acrossLoop (keys : List Slice) (files : List FileMetaData) :
    Nat → Int → Nat → Option Across
  | 0, _, _ => none
  | fuel + 1, index, offset =>
      match files[index.toNat]? with
      | none => some ⟨false, 0⟩
      | some file =>
          if keys.length ≤ offset then some ⟨false, 0⟩
          else
            let pivot := pageReadPivotAtOffset keys offset
            if offset = 0 then
              -- this return leaves the page pinned
              if (Slice.compare file.start pivot).isLT then some ⟨true, 1⟩
              else acrossLoop keys files fuel (-1 + 1) (offset + 1)
            else if (Slice.compare file.limit pivot).isLE then
              acrossLoop keys files fuel (index + 1) offset
            else if (Slice.compare file.start pivot).isLT then some ⟨true, 0⟩
            else acrossLoop keys files fuel (index - 1 + 1) (offset + 1)

/-- `FileAcrossPivots`.  Every round moves on by a file or by a pivot. -/
def fileAcrossPivots (items : IndexItems) (files : List FileMetaData) :
    Option Across :=
  if filesInOrder [] files then
    acrossLoop (pivots items) files (files.length + items.length + 1) 0 0
  else some ⟨true, 0⟩

/-! ## The routing loops deal the files out -/

/-- The assertion on the last pivot holds when there is a node in front of the
last one, because a file left to a pivot does not start below it. -/
theorem routeFiles_eq_cut {leaveTo : Slice → FileMetaData → Bool}
    (notBelow : ∀ next file, leaveTo next file = true → next ≤ file.start)
    (items : IndexItems) (files : List FileMetaData)
    (asserted : ∀ pivot child file, items = [(pivot, child)] →
      files.head? = some file → pivot ≤ file.start) :
    routeFiles leaveTo items files = some (Lib.cut leaveTo items files) := by
  induction items generalizing files with
  | nil => cases files <;> rfl
  | cons first rest ih =>
      cases files with
      | nil => cases rest <;> rfl
      | cons file files =>
          cases rest with
          | nil =>
              have passed : first.1 ≤ file.start :=
                asserted first.1 first.2 file rfl rfl
              simp [routeFiles, Lib.cut, passed]
          | cons next items =>
              have routed := ih
                ((file :: files).dropWhile (fun file => !leaveTo next.1 file)) (by
                  intro pivot child head single isHead
                  have left := List.head?_dropWhile_not
                    (fun file => !leaveTo next.1 file) (file :: files)
                  rw [isHead] at left
                  have same : next.1 = pivot := by
                    rw [(List.cons.inj single).1]
                  rw [← same]
                  exact notBelow next.1 head (by simpa using left))
              simp [routeFiles, Lib.cut, routed]

theorem flushLeavesTo_iff {next : Slice} {file : FileMetaData} :
    flushLeavesTo next file = true ↔ next ≤ file.start := by
  simp [flushLeavesTo]

theorem distributeLeavesTo_iff {next : Slice} {file : FileMetaData} :
    distributeLeavesTo next file = true ↔ next < file.start := by
  simp [distributeLeavesTo]

/-- Files sorted by the user key they start with. -/
def StartSorted (files : List FileMetaData) : Prop :=
  files.Pairwise (fun earlier later => earlier.start ≤ later.start)

theorem flush_respects {files : List FileMetaData} (sorted : StartSorted files) :
    Lib.Respects flushLeavesTo files := by
  refine List.Pairwise.imp ?_ sorted
  intro earlier later order limit left
  rw [flushLeavesTo_iff] at left ⊢
  exact left.trans order

theorem distribute_respects {files : List FileMetaData}
    (sorted : StartSorted files) : Lib.Respects distributeLeavesTo files := by
  refine List.Pairwise.imp ?_ sorted
  intro earlier later order limit left
  rw [distributeLeavesTo_iff] at left ⊢
  exact left.trans_le order

theorem flushFilesToChildrenNoSplit_eq {items : IndexItems}
    {files : List FileMetaData}
    (asserted : ∀ pivot child file, items = [(pivot, child)] →
      files.head? = some file → pivot ≤ file.start) :
    flushFilesToChildrenNoSplit items files =
      some (Lib.cut flushLeavesTo items files) :=
  routeFiles_eq_cut (fun _ _ left => flushLeavesTo_iff.mp left) items files asserted

theorem distributeFilesToNodes_eq {items : IndexItems}
    {files : List FileMetaData} (several : 2 ≤ items.length) :
    distributeFilesToNodes items files =
      some (Lib.cut distributeLeavesTo items files) :=
  routeFiles_eq_cut (fun _ _ left => (distributeLeavesTo_iff.mp left).le)
    items files (by
      intro pivot child file single
      simp [single] at several)

/-- On ascending pivots, a test that lets go below whatever it lets go at a
pivot decides the owner by one place of the row. -/
theorem ascending_at {item child : Type} {stop : Slice → item → Bool}
    {items : List (Slice × child)}
    (increasing : (items.map Prod.fst).Pairwise (· < ·)) (found : item)
    (falling : ∀ front behind, front < behind → stop behind found = true →
      stop front found = true) :
    items.Pairwise (fun front behind =>
      stop behind.1 found = true → stop front.1 found = true) := by
  refine List.Pairwise.imp ?_ (List.pairwise_map.mp increasing)
  intro front behind order
  exact falling front.1 behind.1 order

/-- Flushing goes by the key a file starts with. -/
theorem ownerOf_flush_of_start {items : IndexItems}
    (increasing : (pivots items).Pairwise (· < ·)) {file : FileMetaData}
    {index : Nat} {place : Slice × PageId} (atIndex : items[index]? = some place)
    (started : index = 0 ∨ place.1 ≤ file.start)
    (ended : ∀ next, items[index + 1]? = some next → file.start < next.1) :
    Lib.ownerOf flushLeavesTo items file = some place.2 := by
  refine Lib.ownerOf_eq_of_place (ascending_at increasing file ?_) atIndex ?_ ?_
  · intro front behind order left
    rw [flushLeavesTo_iff] at left ⊢
    exact order.le.trans left
  · exact started.imp_right flushLeavesTo_iff.mpr
  · intro next isNext
    rw [Bool.eq_false_iff, ne_eq, flushLeavesTo_iff, not_le]
    exact ended next isNext

/-! ## The descent of a scan -/

/-- A scan that starts at `key` visits `child` first, whatever its upper bound,
and a lookup of `key` alone visits nothing else.  A bound below the first pivot
ends the scan at once. -/
structure Visits (items : IndexItems) (key : Slice) (child : PageId) : Prop where
  first : ∀ up, (up = [] ∨ (key ≤ up ∧
      ∀ smallest ∈ (pivots items).head?, smallest ≤ up)) →
    (findChildrenNodes items key up).head? = some child
  only : key ≠ [] → (∀ smallest ∈ (pivots items).head?, smallest ≤ key) →
    findChildrenNodes items key key = [child]

def reaches (pivot key : Slice) : Bool := (Slice.compare pivot key).isLE

theorem reaches_falling {key : Slice} (front behind : Slice) (order : front < behind)
    (reached : reaches behind key = true) : reaches front key = true := by
  simp only [reaches, Slice.compare_isLE] at reached ⊢
  exact order.le.trans reached

theorem ownerOf_reaches_of_place {child : Type} {items : List (Slice × child)}
    (increasing : (items.map Prod.fst).Pairwise (· < ·)) {key : Slice}
    {index : Nat} {place : Slice × child} (atIndex : items[index]? = some place)
    (started : index = 0 ∨ place.1 ≤ key)
    (ended : ∀ next, items[index + 1]? = some next → key < next.1) :
    Lib.ownerOf reaches items key = some place.2 := by
  refine Lib.ownerOf_eq_of_place (ascending_at increasing key reaches_falling) atIndex ?_ ?_
  · simpa [reaches] using started
  · intro next isNext
    simpa [reaches] using ended next isNext

/-- The binary search stops at the owner of the key. -/
theorem ownerOf_binSearch {child : Type} {items : List (Slice × child)}
    (increasing : (items.map Prod.fst).Pairwise (· < ·)) (nonempty : items ≠ [])
    (key : Slice) :
    ∃ place, items[pageBinSearch (items.map Prod.fst) key]? = some place ∧
      Lib.ownerOf reaches items key = some place.2 ∧
      (pageBinSearch (items.map Prod.fst) key = 0 ∨ place.1 ≤ key) ∧
      ∀ next, items[pageBinSearch (items.map Prod.fst) key + 1]? = some next →
        key < next.1 := by
  obtain ⟨inside, notAbove, above⟩ :=
    pageBinSearch_spec increasing (by simpa using nonempty) key
  generalize pageBinSearch (items.map Prod.fst) key = offset at *
  have within : offset < items.length := by simpa using inside
  have ended : ∀ next, items[offset + 1]? = some next → key < next.1 := by
    intro next isNext
    obtain ⟨nextInside, same⟩ := List.getElem?_eq_some_iff.mp isNext
    have := above (offset + 1) (by simpa using nextInside) (by omega)
    rw [← same]
    simpa using this
  rw [List.getElem_map] at notAbove
  refine ⟨items[offset], List.getElem?_eq_getElem within, ?_, notAbove, ended⟩
  exact ownerOf_reaches_of_place increasing (List.getElem?_eq_getElem within)
    notAbove ended

/-- The binary search of `FindChildrenNodes` stops at the owner of the key. -/
theorem ownerOf_reaches {items : IndexItems}
    (increasing : (pivots items).Pairwise (· < ·)) (nonempty : items ≠ [])
    (key : Slice) :
    ∃ place, items[pageFindOffset items key]? = some place ∧
      Lib.ownerOf reaches items key = some place.2 ∧
      (pageFindOffset items key = 0 ∨ place.1 ≤ key) ∧
      ∀ next, items[pageFindOffset items key + 1]? = some next →
        key < next.1 :=
  ownerOf_binSearch increasing nonempty key

theorem findChildrenNodes_eq (items : IndexItems) {key up : Slice}
    (bounded : up = [] ∨ ∀ smallest ∈ (pivots items).head?, smallest ≤ up) :
    findChildrenNodes items key up =
      ((items.drop (if key.isEmpty then 0 else pageFindOffset items key)).takeWhile
        (fun item => up.isEmpty || !(Slice.compare up item.1).isLT)).map
          Prod.snd := by
  rw [findChildrenNodes]
  rw [if_neg]
  intro early
  simp only [Bool.and_eq_true, Bool.not_eq_true', List.isEmpty_eq_false_iff,
    beq_iff_eq, Ordering.isLT_iff_eq_lt, Slice.compare_eq_lt] at early
  obtain ⟨⟨⟨_, _⟩, upNonempty⟩, below⟩ := early
  rcases bounded with empty | bounded
  · exact upNonempty empty
  · cases items with
    | nil => simp [pageReadPivotAtOffset, pivots] at below
    | cons item items =>
        have smallest := bounded item.1 rfl
        exact absurd below (not_lt.mpr smallest)

theorem pageFindOffset_empty {items : IndexItems}
    (increasing : (pivots items).Pairwise (· < ·)) :
    pageFindOffset items [] = 0 := by
  by_cases nonempty : items = []
  · simp [nonempty, pageFindOffset, pageBinSearch, pivots]
  · obtain ⟨inside, notAbove, _⟩ := pageBinSearch_spec increasing
      (by simpa [pivots] using nonempty) []
    rw [pageFindOffset]
    generalize pageBinSearch (pivots items) [] = offset at *
    rcases notAbove with zero | reached
    · exact zero
    · by_contra positive
      have earlier := List.pairwise_iff_getElem.mp increasing 0 offset
        (by omega) inside (by omega)
      exact absurd (earlier.trans_le reached) (List.not_lt_nil _)

/-- A scan from `key` enters the page at the owner of `key`. -/
theorem visits_of_ownerOf {items : IndexItems}
    (increasing : (pivots items).Pairwise (· < ·)) {key : Slice} {child : PageId}
    (owned : Lib.ownerOf reaches items key = some child) :
    Visits items key child := by
  have nonempty : items ≠ [] := by
    rintro rfl
    cases owned
  obtain ⟨place, atOffset, owner, started, ended⟩ :=
    ownerOf_reaches increasing nonempty key
  have same : place.2 = child := Option.some.inj (owner.symm.trans owned)
  have offsetEq : (if key.isEmpty then 0 else pageFindOffset items key) =
      pageFindOffset items key := by
    cases key with
    | nil => exact (pageFindOffset_empty increasing).symm
    | cons => rfl
  obtain ⟨inside, placeEq⟩ := List.getElem?_eq_some_iff.mp atOffset
  have dropped : items.drop (pageFindOffset items key) =
      place :: items.drop (pageFindOffset items key + 1) := by
    rw [← placeEq, List.drop_eq_getElem_cons]
  have entered : ∀ up, key ≤ up →
      (∀ smallest ∈ (pivots items).head?, smallest ≤ up) → place.1 ≤ up := by
    intro up above smallest
    rcases started with zero | reached
    · apply smallest
      rw [zero] at atOffset
      simp [pivots, List.head?_eq_getElem?, atOffset]
    · exact reached.trans above
  constructor
  · intro up bound
    rw [findChildrenNodes_eq items (bound.imp_right (·.2)), offsetEq, dropped,
      List.takeWhile_cons_of_pos]
    · simp [same]
    · rcases bound with rfl | ⟨above, smallest⟩
      · rfl
      · simpa using .inr (entered up above smallest)
  · intro keyNonempty smallest
    have stopped : (items.drop (pageFindOffset items key + 1)).takeWhile
        (fun item => key.isEmpty || !(Slice.compare key item.1).isLT) = [] := by
      rw [List.takeWhile_eq_nil_iff]
      intro nextInside
      have next := ended (items.drop (pageFindOffset items key + 1))[0]
        (by rw [← List.getElem?_eq_getElem nextInside, List.getElem?_drop])
      simpa [keyNonempty] using next
    rw [findChildrenNodes_eq items (.inr smallest), offsetEq, dropped,
      List.takeWhile_cons_of_pos, stopped]
    · simp [same]
    · simpa using .inr (entered key le_rfl smallest)

end AhaTree
