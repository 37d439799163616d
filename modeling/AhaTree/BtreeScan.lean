import AhaTree.BtreeMap

/-!
# Scans of the B-tree

`TreeIterator` of `btree.cc`, with the locks left out: `Seek` goes down to a leaf
and `Next` along the right links.  A leaf that deletions have emptied is shown as
an entry with an empty key and an empty value, unless the scan starts on it.
-/

namespace AhaTree.Btree

open Store

variable {height : Nat} {keySize valueSize : Nat} {target : Slice} {store : Store}
  {pages : PageId → Page}

/-! ## The iterator -/

/-- The keys that `PageReadPivotAtOffset` reads; there are `item_num_` of them. -/
def Page.keys (page : Page) : List Slice :=
  match page.items with
  | .leaf items => leafKeys items
  | .index items => pivots items

/-- `PageReadValueAtOffset`: an internal page has no values. -/
def Page.readValueAtOffset (page : Page) (offset : Nat) : Slice :=
  match page.items with
  | .leaf items => pageReadValueAtOffset items offset
  | .index _ => []

structure TreeIterator where
  current : PageId
  offset : Nat
  valid : Bool
  deriving DecidableEq, Repr

/-- The offset, and whether the page has an entry for the key. -/
def searchInCurNode (page : Page) (key : Slice) : Nat × Bool :=
  let offset := if key = [] then 0 else pageBinSearchHighkey page.keys key
  let found := pageReadPivotAtOffset page.keys offset
  if 0 < key.length ∧ (Slice.compare found key).isLT then (offset, false) else (offset, true)

/-- The loop of the iterator's `SearchDown`. -/
def scanDown (pages : PageId → Page) (key : Slice) : Nat → PageId → Except Failure PageId
  | fuel, id =>
      match (pages id).items, fuel with
      | .leaf _, _ => .ok id
      | .index _, 0 => .error .loops
      | .index items, fuel + 1 => scanDown pages key fuel (childFor items key)

def moveRight (pages : PageId → Page) (current : PageId) (offset : Nat) : TreeIterator :=
  if (pages current).right = 0 then ⟨current, offset, false⟩
  else
    let (offset, found) := searchInCurNode (pages (pages current).right) []
    ⟨(pages current).right, offset, found⟩

def seek (store : Store) (target : Slice) : Except Failure TreeIterator := do
  let current ← scanDown store.pages target store.treeHeight rootPageId
  let (offset, found) := searchInCurNode (store.pages current) target
  pure (if found then ⟨current, offset, true⟩ else moveRight store.pages current offset)

namespace TreeIterator

def next (pages : PageId → Page) (iterator : TreeIterator) : TreeIterator :=
  if (pages iterator.current).keys.length ≤ iterator.offset + 1 then
    moveRight pages iterator.current (iterator.offset + 1)
  else { iterator with offset := iterator.offset + 1 }

def key (pages : PageId → Page) (iterator : TreeIterator) : Slice :=
  pageReadPivotAtOffset (pages iterator.current).keys iterator.offset

def value (pages : PageId → Page) (iterator : TreeIterator) : Slice :=
  (pages iterator.current).readValueAtOffset iterator.offset

end TreeIterator

/-- The entries that `Next` yields while the iterator is valid, if it becomes
invalid within so many steps. -/
def collect (pages : PageId → Page) : Nat → TreeIterator → Option LeafItems
  | fuel, iterator =>
      if iterator.valid then
        match fuel with
        | 0 => none
        | fuel + 1 =>
            (collect pages fuel (iterator.next pages)).map
              (fun rest => (iterator.key pages, iterator.value pages) :: rest)
      else some []

/-- `Seek` followed by `Next` yields the entries of the map from the target on, each
once and in ascending order. -/
def ScanExact (store : Store) (target : Slice) (mapping : Mapping) : Prop :=
  ∃ iterator fuel entries, seek store target = .ok iterator ∧
    collect store.pages fuel iterator = some entries ∧ Lib.Ascending entries ∧
    ∀ key value, (key, value) ∈ entries ↔ mapping key = some value ∧ target ≤ key

/-! ## Along the leaves -/

theorem collect_invalid (fuel : Nat) (current : PageId) (offset : Nat) :
    collect pages fuel ⟨current, offset, false⟩ = some [] := by
  cases fuel with
  | zero => rfl
  | succ fuel => rfl

theorem collect_valid (fuel : Nat) (current : PageId) (offset : Nat) :
    collect pages (fuel + 1) ⟨current, offset, true⟩ =
      (collect pages fuel (TreeIterator.next pages ⟨current, offset, true⟩)).map
        (fun rest => (TreeIterator.key pages ⟨current, offset, true⟩,
          TreeIterator.value pages ⟨current, offset, true⟩) :: rest) := by
  rw [collect]
  rfl

theorem collect_mono {fuel more : Nat} {iterator : TreeIterator} {entries : LeafItems}
    (collected : collect pages fuel iterator = some entries) (grows : fuel ≤ more) :
    collect pages more iterator = some entries := by
  induction fuel generalizing iterator entries more with
  | zero =>
      obtain ⟨current, offset, valid⟩ := iterator
      cases valid with
      | false =>
          rw [collect_invalid] at collected ⊢
          exact collected
      | true => cases collected
  | succ fuel ih =>
      obtain ⟨more, rfl⟩ : ∃ less, more = less + 1 := ⟨more - 1, by omega⟩
      obtain ⟨current, offset, valid⟩ := iterator
      cases valid with
      | false =>
          rw [collect_invalid] at collected ⊢
          exact collected
      | true =>
          rw [collect_valid] at collected ⊢
          obtain ⟨rest, isRest, rfl⟩ := Option.map_eq_some_iff.mp collected
          rw [ih isRest (Nat.le_of_succ_le_succ grows)]
          rfl

/-- A scan has one result. -/
theorem collect_unique {fuel other : Nat} {iterator : TreeIterator} {first second : LeafItems}
    (collected : collect pages fuel iterator = some first)
    (again : collect pages other iterator = some second) : first = second := by
  have left := collect_mono collected (Nat.le_max_left fuel other)
  have right := collect_mono again (Nat.le_max_right fuel other)
  exact Option.some.inj (left.symm.trans right)

/-- What a scan shows of a leaf that it comes to from the left. -/
def shown (page : PageId × LeafItems) : LeafItems :=
  if page.2 = [] then [([], [])] else page.2

/-- Leaves that follow one another, up to the last one of the tree. -/
structure Linked (pages : PageId → Page) (first : PageId × LeafItems)
    (after : List (PageId × LeafItems)) : Prop where
  areLeaves : ∀ page ∈ first :: after, (pages page.1).items = .leaf page.2
  chained : Chained pages 0 (first.1 :: after.map Prod.fst)
  inner : ∀ page ∈ after, page.1 ≠ 0

theorem Linked.tail {first second : PageId × LeafItems} {after : List (PageId × LeafItems)}
    (linked : Linked pages first (second :: after)) : Linked pages second after :=
  ⟨fun page member => linked.areLeaves page (List.mem_cons_of_mem _ member), linked.chained.2,
    fun page member => linked.inner page (List.mem_cons_of_mem _ member)⟩

/-- The rest of a leaf, before the scan moves right. -/
theorem collect_rest {id : PageId} {items front back : LeafItems} {item : Slice × Slice}
    (isLeaf : (pages id).items = .leaf items) (split : items = front ++ item :: back)
    {fuel : Nat} {rest : LeafItems}
    (collected : collect pages fuel (moveRight pages id items.length) = some rest) :
    ∃ more, collect pages more ⟨id, front.length, true⟩ = some (item :: back ++ rest) := by
  have keys : (pages id).keys = items.map Prod.fst := by
    rw [Page.keys, isLeaf]
    rfl
  have isKey : TreeIterator.key pages ⟨id, front.length, true⟩ = item.1 := by
    rw [TreeIterator.key, keys, split]
    simp [pageReadPivotAtOffset]
  have isValue : TreeIterator.value pages ⟨id, front.length, true⟩ = item.2 := by
    rw [TreeIterator.value, Page.readValueAtOffset, isLeaf, split]
    simp [pageReadValueAtOffset]
  induction back generalizing front item with
  | nil =>
      refine ⟨fuel + 1, ?_⟩
      have isLast : items.length = front.length + 1 := by rw [split]; simp
      rw [collect_valid, TreeIterator.next, keys, List.length_map, if_pos isLast.le]
      rw [isLast] at collected
      simp only [collected, isKey, isValue, Option.map_some, List.singleton_append]
  | cons other back ih =>
      have nextSplit : items = (front ++ [item]) ++ other :: back := by rw [split]; simp
      have nextKey : TreeIterator.key pages ⟨id, (front ++ [item]).length, true⟩ = other.1 := by
        rw [TreeIterator.key, keys, nextSplit]
        simp [pageReadPivotAtOffset]
      have nextValue :
          TreeIterator.value pages ⟨id, (front ++ [item]).length, true⟩ = other.2 := by
        rw [TreeIterator.value, Page.readValueAtOffset, isLeaf, nextSplit]
        simp [pageReadValueAtOffset]
      obtain ⟨more, later⟩ := ih nextSplit nextKey nextValue
      refine ⟨more + 1, ?_⟩
      have notLast : ¬ items.length ≤ front.length + 1 := by
        rw [split]
        simp
      rw [List.length_append, List.length_singleton] at later
      rw [collect_valid, TreeIterator.next, keys, List.length_map, if_neg notLast]
      simp only [later, isKey, isValue, Option.map_some, List.cons_append]

theorem collect_moveRight {first : PageId × LeafItems} {after : List (PageId × LeafItems)}
    (linked : Linked pages first after) (offset : Nat) :
    ∃ fuel, collect pages fuel (moveRight pages first.1 offset) = some (after.flatMap shown) := by
  induction after generalizing first offset with
  | nil =>
      have isLast : (pages first.1).right = 0 := linked.chained.1
      rw [moveRight, if_pos isLast]
      exact ⟨0, collect_invalid 0 _ _⟩
  | cons second after ih =>
      have isNext : (pages first.1).right = second.1 := linked.chained.1
      have isLeaf : (pages second.1).items = .leaf second.2 :=
        linked.areLeaves second (List.mem_cons_of_mem _ List.mem_cons_self)
      have notLast := linked.inner second List.mem_cons_self
      have moved : moveRight pages first.1 offset = ⟨second.1, 0, true⟩ := by
        rw [moveRight, isNext, if_neg notLast]
        rfl
      rw [moved, List.flatMap_cons]
      obtain ⟨id, items⟩ := second
      obtain ⟨fuel, later⟩ := ih linked.tail items.length
      cases items with
      | nil =>
          obtain ⟨fuel, later⟩ := ih linked.tail 1
          have keys : (pages id).keys = [] := by
            rw [Page.keys, isLeaf]
            rfl
          have isKey : TreeIterator.key pages ⟨id, 0, true⟩ = [] := by
            rw [TreeIterator.key, keys]
            rfl
          have isValue : TreeIterator.value pages ⟨id, 0, true⟩ = [] := by
            rw [TreeIterator.value, Page.readValueAtOffset, isLeaf]
            rfl
          refine ⟨fuel + 1, ?_⟩
          rw [collect_valid, TreeIterator.next, keys,
            if_pos (show ([] : List Slice).length ≤ 0 + 1 by decide)]
          simp only [isKey, isValue, Nat.zero_add]
          simp only at later
          rw [later]
          rfl
      | cons item back =>
          exact @collect_rest pages id (item :: back) [] back item isLeaf rfl fuel _ later

/-! ## From the root -/

/-- The leaf that is responsible for a key: below each page the first child whose
pivot reaches the key, or else the last child. -/
def responsible (pages : PageId → Page) (key : Slice) : Nat → PageId → PageId
  | 0, id => id
  | depth + 1, id =>
      match (pages id).items with
      | .leaf _ => id
      | .index items => responsible pages key depth (reaching items key)

/-- No leaf to the right of the one that is responsible for the target is empty. -/
def NoEmptyLeafAhead (store : Store) (target : Slice) : Prop :=
  ∀ id ∈ (rightward store.pages store.newId
      (responsible store.pages target store.treeHeight rootPageId)).tail,
    (store.pages id).items ≠ .leaf []

theorem Descends.scanDown {key : Slice} {id leaf : PageId}
    (descends : Descends pages key height id leaf) {fuel : Nat} (enough : height ≤ fuel) :
    scanDown pages key fuel id = .ok leaf := by
  induction descends generalizing fuel with
  | leaf isLeaf =>
      unfold Btree.scanDown
      rw [isLeaf]
  | index isIndex isChild _ _ ih =>
      obtain ⟨fuel, rfl⟩ : ∃ less, fuel = less + 1 := ⟨fuel - 1, by omega⟩
      rw [Btree.scanDown.eq_def]
      simp only [isIndex, isChild]
      exact ih (Nat.le_of_succ_le_succ enough)

theorem Descends.responsible {key : Slice} {id leaf : PageId}
    (descends : Descends pages key height id leaf) {depth : Nat} (enough : height ≤ depth) :
    responsible pages key depth id = leaf := by
  induction descends generalizing depth with
  | leaf isLeaf =>
      cases depth with
      | zero => rfl
      | succ depth => rw [Btree.responsible, isLeaf]
  | index isIndex _ reaches _ ih =>
      obtain ⟨depth, rfl⟩ : ∃ less, depth = less + 1 := ⟨depth - 1, by omega⟩
      rw [Btree.responsible, isIndex]
      simp only [reaches]
      exact ih (Nat.le_of_succ_le_succ enough)

/-- The leaf at which a scan starts. -/
theorem collect_seek {id : PageId} {items : LeafItems} {after : List (PageId × LeafItems)}
    (nonempty : target ≠ []) (linked : Linked store.pages (id, items) after)
    (ascending : Lib.Ascending items)
    (found : scanDown store.pages target store.treeHeight rootPageId = .ok id) :
    ∃ iterator fuel, seek store target = .ok iterator ∧
      collect store.pages fuel iterator =
        some (items.filter (fun item => decide (target ≤ item.1)) ++ after.flatMap shown) := by
  have isLeaf : (store.pages id).items = .leaf items :=
    linked.areLeaves (id, items) List.mem_cons_self
  have keys : (store.pages id).keys = items.map Prod.fst := by
    rw [Page.keys, isLeaf]
    rfl
  have positive : 0 < target.length := List.length_pos_iff.mpr nonempty
  have sought : seek store target = .ok
      (if (searchInCurNode (store.pages id) target).2 then
          ⟨id, (searchInCurNode (store.pages id) target).1, true⟩
        else moveRight store.pages id (searchInCurNode (store.pages id) target).1) := by
    rw [seek, found]
    rfl
  rw [searchInCurNode, if_neg nonempty, keys] at sought
  simp only [positive, true_and, Ordering.isLT_iff_eq_lt, Slice.compare_eq_lt] at sought
  cases isEmpty : items with
  | nil =>
      have absent := nil_lt_of_ne_nil nonempty
      obtain ⟨fuel, later⟩ := collect_moveRight linked 0
      rw [isEmpty] at sought
      refine ⟨_, fuel, sought, ?_⟩
      have isPast : pageReadPivotAtOffset (List.map Prod.fst ([] : LeafItems))
          (pageBinSearchHighkey (List.map Prod.fst ([] : LeafItems)) target) = [] := rfl
      rw [isPast, if_pos absent]
      exact later
  | cons head tail =>
      have isNonempty : items ≠ [] := by
        rw [isEmpty]
        exact List.cons_ne_nil _ _
      obtain ⟨before, item, behind, split, offset, below, reaches⟩ :=
        pageBinSearchHighkey_spec (ascending.once target) isNonempty
      have pivot : pageReadPivotAtOffset (items.map Prod.fst) before.length = item.1 := by
        rw [split]
        simp [pageReadPivotAtOffset]
      have skipped : before.filter (fun item => decide (target ≤ item.1)) = [] := by
        rw [List.filter_eq_nil_iff]
        intro other member
        simpa using below other member
      rw [← isEmpty]
      rw [offset, pivot] at sought
      by_cases past : item.1 < target
      · have isLast : behind = [] := reaches.resolve_right (not_le.mpr past)
        obtain ⟨fuel, later⟩ := collect_moveRight linked before.length
        simp only [past, if_true, Bool.false_eq_true, if_false] at sought
        refine ⟨_, fuel, sought, ?_⟩
        have dropped : [item].filter (fun item => decide (target ≤ item.1)) = [] := by
          simpa [List.filter_eq_nil_iff] using past
        rw [split, isLast, List.filter_append, skipped, dropped]
        exact later
      · have more : ∀ other ∈ item :: behind, target ≤ other.1 := by
          rw [split] at ascending
          have ordered := (Lib.ascending_append.mp ascending).2.1
          intro other member
          rcases List.mem_cons.mp member with rfl | member
          · exact not_lt.mp past
          · exact (not_lt.mp past).trans ((List.pairwise_cons.mp ordered).1 other member).le
        have kept : (item :: behind).filter (fun item => decide (target ≤ item.1)) =
            item :: behind := by
          rw [List.filter_eq_self]
          intro other member
          simpa using more other member
        obtain ⟨fuel, later⟩ := collect_moveRight linked items.length
        obtain ⟨more, collected⟩ := collect_rest isLeaf split later
        simp only [past, if_false, if_true] at sought
        refine ⟨_, more, sought, ?_⟩
        rw [collected, split, List.filter_append, skipped, kept, List.nil_append]

/-! ## The whole scan -/

theorem Tree.leaves_sublist {tree : Tree height} : tree.leaves.Sublist tree.ids := by
  induction height with
  | zero => exact List.Sublist.refl _
  | succ height ih =>
      exact (List.Sublist.flatMap_right tree.2 (fun kid _ => @ih kid.2)).cons _

theorem Holding.leaves_le {tree : Tree height} (holding : Holding keySize valueSize store tree) :
    tree.leaves.length ≤ store.newId := by
  have distinct : tree.leaves.Nodup := holding.subtree.distinct.sublist Tree.leaves_sublist
  have inside : tree.leaves ⊆ List.range store.newId := by
    intro leaf member
    exact List.mem_range.mpr (holding.subtree.used leaf (Tree.leaves_subset member))
  have fewer := (List.subperm_of_subset distinct inside).length_le
  rwa [List.length_range] at fewer

/-- The pages of a tree from the leaf on that is responsible for a key. -/
theorem Holding.linked {tree : Tree height} (holding : Holding keySize valueSize store tree)
    {before after : List (PageId × LeafItems)} {page : PageId × LeafItems}
    (split : tree.leafPages = before ++ page :: after) : Linked store.pages page after := by
  have leaves : tree.leaves = before.map Prod.fst ++ page.1 :: after.map Prod.fst := by
    rw [Tree.leaves_eq, split, List.map_append, List.map_cons]
  refine ⟨?_, ?_, ?_⟩
  · intro other member
    apply holding.subtree.kept.leafPages
    rw [split]
    exact List.mem_append_right _ member
  · have chained := holding.subtree.chained
    rw [leaves] at chained
    exact (chained_append.mp chained).2
  · intro other member
    exact holding.ne_root leaves other.1 (List.mem_map_of_mem member)

theorem Holding.rightward_eq {tree : Tree height} (holding : Holding keySize valueSize store tree)
    {before after : List (PageId × LeafItems)} {page : PageId × LeafItems}
    (split : tree.leafPages = before ++ page :: after) :
    rightward store.pages store.newId page.1 = page.1 :: after.map Prod.fst := by
  have linked := holding.linked split
  refine rightward_of_chained linked.chained ?_ ?_
  · intro leaf member
    obtain ⟨other, isPage, rfl⟩ := List.mem_map.mp member
    exact linked.inner other isPage
  · have atMost := holding.leaves_le
    rw [Tree.leaves_eq, split, List.map_append, List.map_cons, List.length_append] at atMost
    exact (Nat.le_add_left ..).trans atMost

/-- In a tree that holds a map, a scan is exact if it comes to no empty leaf. -/
theorem Holding.scanExact_iff {tree : Tree height} {mapping : Mapping} (nonempty : target ≠ [])
    (holding : Holding keySize valueSize store tree)
    (agrees : ∀ key value, target ≤ key →
      ((key, value) ∈ tree.entries ↔ mapping key = some value)) :
    ScanExact store target mapping ↔ NoEmptyLeafAhead store target := by
  obtain ⟨before, id, items, after, split, below, behind, descends⟩ :=
    descent holding.subtree nonempty
  rw [holding.root] at descends
  have linked := holding.linked split
  have isPage : (id, items) ∈ tree.leafPages := by
    rw [split]
    simp
  obtain ⟨iterator, fuel, sought, collected⟩ := collect_seek nonempty linked
    (holding.subtree.ordered.leafPages isPage) (descends.scanDown holding.enough)
  have ahead : NoEmptyLeafAhead store target ↔ ∀ page ∈ after, page.2 ≠ [] := by
    rw [NoEmptyLeafAhead, descends.responsible holding.enough, holding.rightward_eq split,
      List.tail_cons]
    simp only [List.forall_mem_map]
    refine forall₂_congr (fun page member => ?_)
    rw [linked.areLeaves page (List.mem_cons_of_mem _ member)]
    simp
  have notBelow : ¬ target ≤ [] := not_le.mpr (nil_lt_of_ne_nil nonempty)
  rw [ahead]
  constructor
  · rintro ⟨other, steps, entries, again, collectedAgain, -, exact⟩ page member isEmpty
    rw [sought] at again
    cases again
    rw [← collect_unique collected collectedAgain] at exact
    have spurious : (([], []) : Slice × Slice) ∈ after.flatMap shown := by
      refine List.mem_flatMap.mpr ⟨page, member, ?_⟩
      rw [shown, if_pos isEmpty]
      exact List.mem_singleton_self _
    exact notBelow ((exact [] []).mp (List.mem_append_right _ spurious)).2
  · intro full
    have plain : after.flatMap shown = after.flatMap Prod.snd := by
      apply List.flatMap_congr
      intro page member
      exact if_neg (full page member)
    rw [plain] at collected
    refine ⟨iterator, fuel, _, sought, collected, ?_, ?_⟩
    · have ascending := holding.subtree.ordered.ascending_entries
      rw [Tree.entries_eq, split, List.flatMap_append, List.flatMap_cons] at ascending
      apply ascending.sublist
      exact ((List.filter_sublist ..).append (List.Sublist.refl _)).trans
        (List.sublist_append_right ..)
    · intro key value
      rw [List.mem_append, List.mem_filter, decide_eq_true_eq]
      constructor
      · rintro (⟨inItems, reached⟩ | inAfter)
        · refine ⟨(agrees key value reached).mp ?_, reached⟩
          rw [Tree.entries_eq, split, List.flatMap_append, List.flatMap_cons]
          exact List.mem_append_right _ (List.mem_append_left _ inItems)
        · have reached : target ≤ key := (behind _ inAfter).le
          refine ⟨(agrees key value reached).mp ?_, reached⟩
          rw [Tree.entries_eq, split, List.flatMap_append, List.flatMap_cons]
          exact List.mem_append_right _ (List.mem_append_right _ inAfter)
      · rintro ⟨isValue, reached⟩
        have inTree := (agrees key value reached).mpr isValue
        rw [Tree.entries_eq, split, List.flatMap_append, List.flatMap_cons, List.mem_append,
          List.mem_append] at inTree
        rcases inTree with inBefore | inItems | inAfter
        · exact absurd reached (not_le.mpr (below _ inBefore))
        · exact .inl ⟨inItems, reached⟩
        · exact .inr inAfter

/-! ## Keys of no bytes -/

/-- The root page is an empty leaf. -/
structure Blank (store : Store) : Prop where
  items : (store.pages rootPageId).items = .leaf []
  right : (store.pages rootPageId).right = 0

theorem exec_insert_blank {fuel : Nat} {value : Slice} {answer : Answer} {last : Store}
    (blank : Blank store) (ran : exec (insert fuel [] value) store = .ok (answer, last)) :
    Blank last := by
  obtain ⟨isLeaf, right⟩ := blank
  have full : leafFree [] ≤ leafSpace [] value →
      pageInsertLeafEntry [] [] value = .error .noSpace := by
    intro noRoom
    rw [pageInsertLeafEntry, if_pos noRoom]
  rw [insert, exec_searchDown, searchLoop_leaf isLeaf, Lib.Program.done_bind, insertOnPath,
    tryInsertLeaf] at ran
  simp only [Lib.Program.bind_assoc, exec_pin, isLeaf] at ran
  by_cases small : leafFree [] < leafSpace [] value
  · rw [if_pos small] at ran
    simp only [Lib.Program.pure_eq, Lib.Program.done_bind, Bool.false_eq_true, if_false,
      handleOverflow, insertAndSplitLeafPages, Lib.Program.bind_assoc, exec_pin, isLeaf,
      exec_allocate, exec_writeLock] at ran
    have low : pageMoveLeafEntries [] [] 0 (([] : LeafItems).length / 2) = .ok [] := rfl
    have high : pageMoveLeafEntries [] [] (([] : LeafItems).length / 2)
        ([] : LeafItems).length = .ok [] := rfl
    have belongsHigh : ¬ (Slice.compare [] (pageReadPivotAtOffset (leafKeys [])
        (([] : LeafItems).length / 2))).isLT = true := by decide
    rw [low, high, exec_orAbort_ok, exec_orAbort_ok, if_neg belongsHigh, if_neg belongsHigh,
      full small.le] at ran
    cases ran
  · rw [if_neg small] at ran
    by_cases noRoom : leafFree [] ≤ leafSpace [] value
    · rw [full noRoom] at ran
      cases ran
    · have inserted : pageInsertLeafEntry [] [] value = .ok [] := by
        rw [pageInsertLeafEntry, if_neg noRoom]
        rfl
      rw [inserted] at ran
      simp only [Lib.Program.bind_assoc, exec_orAbort_ok, exec_put, Lib.Program.pure_eq,
        Lib.Program.done_bind, if_true, exec_unlockParents] at ran
      cases ran
      exact ⟨by simp, by simpa using right⟩

theorem exec_delete_blank {fuel : Nat} {answer : Answer} {last : Store} (blank : Blank store)
    (ran : exec (delete fuel []) store = .ok (answer, last)) : Blank last := by
  obtain ⟨isLeaf, right⟩ := blank
  rw [delete, exec_searchDown, searchLoop_leaf isLeaf, Lib.Program.done_bind] at ran
  have removed : pageRemoveEntry [] [] = some [] := rfl
  simp only [deleteEntry, exec_pin, isLeaf, removed, exec_put] at ran
  cases ran
  exact ⟨by simp, by simpa using right⟩

theorem exec_query_blank {fuel : Nat} {answer : Answer} {last : Store} (blank : Blank store)
    (ran : exec (query fuel []) store = .ok (answer, last)) : Blank last := by
  obtain ⟨isLeaf, -⟩ := blank
  rw [query, exec_searchDown, searchLoop_leaf isLeaf, Lib.Program.done_bind] at ran
  have missing : getValueWithKey [] [] = .error .zeroBytes := rfl
  simp only [queryLeaf, exec_pin, isLeaf, missing, exec_orAbort_error] at ran
  cases ran

/-- The page search takes the empty key for one that an empty leaf has, so that a leaf
never gets it. -/
theorem run_blank {valueSize : Nat} {calls : List Call} {answers : List Answer} {last : Store}
    (sized : ∀ call ∈ calls, call.Sized 0 valueSize) (blank : Blank store)
    (ran : run calls store = .ok (answers, last)) : Blank last := by
  induction calls generalizing store answers with
  | nil =>
      cases ran
      exact blank
  | cons call calls ih =>
      have own := sized call List.mem_cons_self
      rw [run] at ran
      cases isCall : store.call call with
      | error failure =>
          rw [isCall] at ran
          cases ran
      | ok result =>
          obtain ⟨answer, middle⟩ := result
          have stays : Blank middle := by
            cases call with
            | insert key value =>
                rw [Store.call, Call.code, List.eq_nil_of_length_eq_zero own.1] at isCall
                exact exec_insert_blank blank isCall
            | update key value =>
                rw [Store.call, Call.code, List.eq_nil_of_length_eq_zero own.1] at isCall
                exact exec_insert_blank blank isCall
            | query key =>
                rw [Store.call, Call.code, List.eq_nil_of_length_eq_zero own] at isCall
                exact exec_query_blank blank isCall
            | delete key =>
                rw [Store.call, Call.code, List.eq_nil_of_length_eq_zero own] at isCall
                exact exec_delete_blank blank isCall
          rw [isCall] at ran
          cases isRest : run calls middle with
          | error failure => simp [isRest] at ran
          | ok rest =>
              obtain ⟨others, final⟩ := rest
              simp only [isRest, Except.ok.injEq, Prod.mk.injEq] at ran
              obtain ⟨-, rfl⟩ := ran
              exact ih (fun call member => sized call (List.mem_cons_of_mem _ member)) stays isRest

theorem runOnMap_keyless {valueSize : Nat} {calls : List Call} {mapping : Mapping} {key : Slice}
    (sized : ∀ call ∈ calls, call.Sized 0 valueSize) (keyed : key ≠ []) :
    (runOnMap calls mapping).2 key = mapping key := by
  induction calls generalizing mapping with
  | nil => rfl
  | cons call calls ih =>
      have own := sized call List.mem_cons_self
      rw [runOnMap]
      simp only
      rw [ih (fun call member => sized call (List.mem_cons_of_mem _ member))]
      have different : ∀ other : Slice, other.length = 0 → key ≠ other := by
        intro other isEmpty
        rw [List.eq_nil_of_length_eq_zero isEmpty]
        exact keyed
      cases call with
      | insert other value => exact Function.update_of_ne (different other own.1) ..
      | update other value => exact Function.update_of_ne (different other own.1) ..
      | query other => rfl
      | delete other => exact Function.update_of_ne (different other own) ..

theorem Blank.scanExact {mapping : Mapping} (nonempty : target ≠ []) (blank : Blank store)
    (keyless : ∀ key, key ≠ [] → mapping key = none) : ScanExact store target mapping := by
  have linked : Linked store.pages (rootPageId, []) [] := by
    refine ⟨?_, ⟨blank.right, trivial⟩, fun _ member => absurd member List.not_mem_nil⟩
    intro page member
    rw [List.mem_singleton.mp member]
    exact blank.items
  have found : scanDown store.pages target store.treeHeight rootPageId = .ok rootPageId :=
    (Descends.leaf blank.items).scanDown (Nat.zero_le _)
  obtain ⟨iterator, fuel, sought, collected⟩ :=
    collect_seek nonempty linked List.Pairwise.nil found
  refine ⟨iterator, fuel, [], sought, collected, List.Pairwise.nil, ?_⟩
  intro key value
  constructor
  · exact fun member => absurd member List.not_mem_nil
  · rintro ⟨isValue, reached⟩
    rw [keyless key ((nil_lt_of_ne_nil nonempty).trans_le reached).ne'] at isValue
    cases isValue

theorem Blank.noEmptyLeafAhead (blank : Blank store) : NoEmptyLeafAhead store target := by
  have isRoot : responsible store.pages target store.treeHeight rootPageId = rootPageId :=
    (Descends.leaf blank.items).responsible (Nat.zero_le _)
  rw [NoEmptyLeafAhead, isRoot]
  cases store.newId with
  | zero => exact fun _ member => absurd member List.not_mem_nil
  | succ steps =>
      rw [rightward, if_pos blank.right]
      exact fun _ member => absurd member List.not_mem_nil

/-! ## Every tree -/

/-- After any calls a scan is exact if and only if no leaf to the right of the one
where it starts is empty. -/
theorem scans_exact_iff (keySize valueSize : Nat) (calls : List Call) (target : Slice)
    (answers : List Answer) (store : Store) (nonempty : target ≠ [])
    (sized : ∀ call ∈ calls, call.Sized keySize valueSize)
    (ran : run calls initial = .ok (answers, store)) :
    ScanExact store target (runOnMap calls (fun _ => none)).2 ↔
      NoEmptyLeafAhead store target := by
  rcases Nat.eq_zero_or_pos keySize with rfl | keyed
  · have blank : Blank store := run_blank sized ⟨rfl, rfl⟩ ran
    have exact := blank.scanExact nonempty
      (fun key isKey => @runOnMap_keyless valueSize calls (fun _ => none) key sized isKey)
    exact ⟨fun _ => blank.noEmptyLeafAhead, fun _ => exact⟩
  · rcases run_refines keyed sized holding_initial agrees_initial with
      ⟨failure, failed, -⟩ | ⟨others, last, tall, grown, again, holding, agrees, -⟩
    · rw [ran] at failed
      cases failed
    · rw [ran] at again
      cases again
      exact holding.scanExact_iff nonempty (fun key value _ => agrees key value)

instance (store : Store) (target : Slice) : Decidable (NoEmptyLeafAhead store target) :=
  inferInstanceAs (Decidable (∀ id ∈ _, _))

/-- The tree of two leaves, with entries on both. -/
theorem scans_exact_iff_split :
    ∃ answers store, run splitCalls initial = .ok (answers, store) ∧
      ScanExact store [2] (runOnMap splitCalls (fun _ => none)).2 := by
  have full : (run splitCalls initial).map (fun result => decide (NoEmptyLeafAhead result.2 [2])) =
      .ok true := by decide +kernel
  cases isRun : run splitCalls initial with
  | error failure =>
      rw [isRun] at full
      cases full
  | ok result =>
      rw [isRun] at full
      refine ⟨result.1, result.2, rfl, ?_⟩
      exact (scans_exact_iff 1 1990 splitCalls [2] result.1 result.2 (by decide)
        (by simp [splitCalls, Call.Sized, -List.reduceReplicate]) isRun).mpr
          (of_decide_eq_true (Except.ok.inj full))

/-- The second leaf has lost its entries again. -/
def emptiedCalls : List Call :=
  [.insert [1] (List.replicate 1990 1), .insert [2] (List.replicate 1990 2),
    .insert [3] (List.replicate 1990 3), .insert [4] (List.replicate 1990 4),
    .insert [5] (List.replicate 1990 5), .delete [3], .delete [4], .delete [5]]

/-- A leaf that deletions have emptied shows up in a scan as an entry with an empty key. -/
theorem emptied_leaf_is_shown :
    ¬ ∀ (keySize valueSize : Nat) (calls : List Call) (target : Slice) (answers : List Answer)
      (store : Store), target ≠ [] → (∀ call ∈ calls, call.Sized keySize valueSize) →
        run calls initial = .ok (answers, store) →
          ScanExact store target (runOnMap calls (fun _ => none)).2 := by
  intro exact
  have shown : (run emptiedCalls initial).map (fun result =>
      ((seek result.2 [1]).toOption.bind (collect result.2.pages 3)).map (List.map Prod.fst)) =
        .ok (some [[1], [2], []]) := by decide +kernel
  cases isRun : run emptiedCalls initial with
  | error failure =>
      rw [isRun] at shown
      cases shown
  | ok result =>
      rw [isRun] at shown
      have keys : ((seek result.2 [1]).toOption.bind (collect result.2.pages 3)).map
          (List.map Prod.fst) = some [[1], [2], []] := Except.ok.inj shown
      obtain ⟨iterator, fuel, entries, sought, collected, -, iff⟩ :=
        exact 1 1990 emptiedCalls [1] result.1 result.2 (by decide)
          (by simp [emptiedCalls, Call.Sized, -List.reduceReplicate]) isRun
      rw [sought] at keys
      obtain ⟨others, collectedAgain, areKeys⟩ := Option.map_eq_some_iff.mp keys
      have same := collect_unique collected collectedAgain
      have isShown : ([] : Slice) ∈ entries.map Prod.fst := by
        rw [same, areKeys]
        decide
      obtain ⟨⟨_, value⟩, member, rfl⟩ := List.mem_map.mp isShown
      exact absurd ((iff _ value).mp member).2 (by decide)

end AhaTree.Btree
