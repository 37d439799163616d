import AhaTree.Btree

/-!
# The tree in the pages

`Tree height` is a search tree whose leaves all have the depth `height`, with
the ids of its pages; `Stored` says that the pages hold it.  A pivot bounds the
keys of its child, and the keys of the next child lie above it, so that a
subtree has an interval of keys that it is responsible for.

A page that takes two or three pivots only may split into a page without children
and one with all of them.  The first one stays in its parent under an empty
pivot: `Kept` allows for such spent entries in front of the others.  `Subtree`
collects what holds of a subtree in a store, and `Siblings` the same for some
children of one page.
-/

namespace AhaTree.Btree

/-- A leaf has its entries, an internal page its pivots with their subtrees. -/
def Tree : Nat → Type
  | 0 => PageId × LeafItems
  | height + 1 => PageId × List (Slice × Tree height)

namespace Tree

def id : {height : Nat} → Tree height → PageId
  | 0, tree => tree.1
  | _ + 1, tree => tree.1

/-- The entries of all leaves, from left to right. -/
def entries : {height : Nat} → Tree height → LeafItems
  | 0, tree => tree.2
  | _ + 1, tree => tree.2.flatMap (fun kid => kid.2.entries)

/-- The ids of all leaves, from left to right. -/
def leaves : {height : Nat} → Tree height → List PageId
  | 0, tree => [tree.1]
  | _ + 1, tree => tree.2.flatMap (fun kid => kid.2.leaves)

def ids : {height : Nat} → Tree height → List PageId
  | 0, tree => [tree.1]
  | _ + 1, tree => tree.1 :: tree.2.flatMap (fun kid => kid.2.ids)

end Tree

/-- The entries of an internal page with these children. -/
def indexOf {height : Nat} (kids : List (Slice × Tree height)) : IndexItems :=
  kids.map (fun kid => (kid.1, kid.2.id))

section Kids

variable {height : Nat}

def idsOf (kids : List (Slice × Tree height)) : List PageId :=
  kids.flatMap (fun kid => kid.2.ids)

def leavesOf (kids : List (Slice × Tree height)) : List PageId :=
  kids.flatMap (fun kid => kid.2.leaves)

def entriesOf (kids : List (Slice × Tree height)) : LeafItems :=
  kids.flatMap (fun kid => kid.2.entries)

end Kids

/-- The key lies above the lower bound, if there is one. -/
def Above (low : Option Slice) (key : Slice) : Prop :=
  ∀ bound ∈ low, bound < key

/-- The key does not exceed the upper bound, if there is one. -/
def UpTo (high : Option Slice) (key : Slice) : Prop :=
  ∀ bound ∈ high, key ≤ bound

/-- Every pivot lies above the one before it, and is the upper bound of its child
and the lower bound of the next one. -/
def OrderedKids {α : Type} (ordered : Option Slice → Option Slice → α → Prop) :
    Option Slice → Option Slice → List (Slice × α) → Prop
  | _, _, [] => True
  | low, high, kid :: kids =>
      Above low kid.1 ∧ UpTo high kid.1 ∧ ordered low (some kid.1) kid.2 ∧
        OrderedKids ordered (some kid.1) high kids

namespace Tree

def Stored (pages : PageId → Page) : {height : Nat} → Tree height → Prop
  | 0, tree => (pages tree.1).items = .leaf tree.2
  | _ + 1, tree =>
      (pages tree.1).items = .index (indexOf tree.2) ∧
        ∀ kid ∈ tree.2, kid.2.Stored pages

def Ordered : {height : Nat} → Option Slice → Option Slice → Tree height → Prop
  | 0, low, high, tree =>
      Lib.Ascending tree.2 ∧ ∀ item ∈ tree.2, Above low item.1 ∧ UpTo high item.1
  | _ + 1, low, high, tree =>
      tree.2 ≠ [] ∧ OrderedKids (fun low high kid => kid.Ordered low high) low high tree.2

/-- All keys and all values have the given sizes. -/
def Sized (keySize valueSize : Nat) : {height : Nat} → Tree height → Prop
  | 0, tree => ∀ item ∈ tree.2, item.1.length = keySize ∧ item.2.length = valueSize
  | _ + 1, tree =>
      ∀ kid ∈ tree.2, kid.1.length = keySize ∧ kid.2.Sized keySize valueSize

end Tree

/-- At least four index entries fit in a page. -/
def FourPivots (keySize : Nat) : Prop :=
  4 * (keySize + 3 * itemIdSize) ≤ usableSpace

/-- Entries for pages that a split has left without children. -/
structure Spent {height : Nat} (keySize : Nat) (store : Store)
    (kids : List (Slice × Tree height)) (spent : IndexItems) : Prop where
  empty : ∀ item ∈ spent, item.1 = []
  used : ∀ item ∈ spent, item.2 < store.newId
  apart : ∀ item ∈ spent, item.2 ∉ idsOf kids
  narrow : spent = [] ∨ ¬ FourPivots keySize

/-- The page has the entries of these children, behind spent ones. -/
def Indexes {height : Nat} (keySize : Nat) (store : Store) (id : PageId)
    (kids : List (Slice × Tree height)) : Prop :=
  ∃ spent, Spent keySize store kids spent ∧
    (store.pages id).items = .index (spent ++ indexOf kids)

/-- The pages hold the tree. -/
def Tree.Kept (keySize : Nat) (store : Store) : {height : Nat} → Tree height → Prop
  | 0, tree => (store.pages tree.1).items = .leaf tree.2
  | _ + 1, tree =>
      Indexes keySize store tree.1 tree.2 ∧ ∀ kid ∈ tree.2, kid.2.Kept keySize store

/-- Each leaf points to the next one, and the last one to `next`. -/
def Chained (pages : PageId → Page) (next : PageId) : List PageId → Prop
  | [] => True
  | id :: leaves => (pages id).right = leaves.headD next ∧ Chained pages next leaves

/-! ## Bounds -/

section Bounds

variable {low high : Option Slice} {key other : Slice}

theorem Above.trans (above : Above low key) (less : key ≤ other) : Above low other :=
  fun bound isBound => (above bound isBound).trans_le less

theorem UpTo.trans (less : other ≤ key) (upTo : UpTo high key) : UpTo high other :=
  fun bound isBound => less.trans (upTo bound isBound)

/-- An interval with fewer keys. -/
structure Within (low high : Option Slice) (outerLow outerHigh : Option Slice) : Prop where
  above : ∀ key, Above low key → Above outerLow key
  upTo : ∀ key, UpTo high key → UpTo outerHigh key

theorem within_some {outerHigh : Option Slice} (upTo : UpTo outerHigh key) :
    Within low (some key) low outerHigh :=
  ⟨fun _ above => above, fun _ less => upTo.trans (less key rfl)⟩

variable {α : Type} {ordered : Option Slice → Option Slice → α → Prop}

theorem OrderedKids.mono {outerLow outerHigh : Option Slice} {kids : List (Slice × α)}
    (mono : ∀ {low high outerLow outerHigh : Option Slice} {kid : α},
      Within low high outerLow outerHigh → ordered low high kid →
      ordered outerLow outerHigh kid)
    (within : Within low high outerLow outerHigh)
    (kidsOrdered : OrderedKids ordered low high kids) :
    OrderedKids ordered outerLow outerHigh kids := by
  induction kids generalizing low outerLow with
  | nil => trivial
  | cons kid kids ih =>
      obtain ⟨above, upTo, first, rest⟩ := kidsOrdered
      refine ⟨within.above _ above, within.upTo _ upTo, ?_, ?_⟩
      · exact mono ⟨within.above, fun _ less => less⟩ first
      · exact ih ⟨fun _ above => above, within.upTo⟩ rest

/-- The last pivot, or the bound itself when there is no pivot. -/
def lastPivot (low : Option Slice) (kids : List (Slice × α)) : Option Slice :=
  (kids.getLast?.map Prod.fst).or low

@[simp] theorem lastPivot_nil : lastPivot low ([] : List (Slice × α)) = low := rfl

@[simp] theorem lastPivot_append_singleton (kids : List (Slice × α)) (kid : Slice × α) :
    lastPivot low (kids ++ [kid]) = some kid.1 := by
  simp [lastPivot]

theorem lastPivot_cons (kid : Slice × α) (kids : List (Slice × α)) :
    lastPivot low (kid :: kids) = lastPivot (some kid.1) kids := by
  cases kids with
  | nil => rfl
  | cons next kids => simp [lastPivot, List.getLast?_cons]

theorem orderedKids_append {first second : List (Slice × α)} :
    OrderedKids ordered low high (first ++ second) ↔
      OrderedKids ordered low high first ∧
        OrderedKids ordered (lastPivot low first) high second := by
  induction first generalizing low with
  | nil => simp [OrderedKids]
  | cons kid kids ih =>
      simp only [List.cons_append, OrderedKids, ih, lastPivot_cons, and_assoc]

/-- The pivots stay below the last one. -/
theorem OrderedKids.upTo_last {kids : List (Slice × α)} (nonempty : kids ≠ [])
    (kidsOrdered : OrderedKids ordered low high kids) :
    OrderedKids ordered low (lastPivot none kids) kids := by
  induction kids generalizing low with
  | nil => exact absurd rfl nonempty
  | cons kid kids ih =>
      obtain ⟨above, upTo, first, rest⟩ := kidsOrdered
      cases kids with
      | nil => exact ⟨above, fun bound isBound => by simp_all [lastPivot], first, trivial⟩
      | cons next kids =>
          have later := ih (by simp) rest
          rw [lastPivot_cons, lastPivot_cons]
          rw [lastPivot_cons] at later
          refine ⟨above, ?_, first, later⟩
          have less : kid.1 ≤ next.1 := (later.1 kid.1 rfl).le
          exact UpTo.trans less later.2.1

theorem OrderedKids.above {kids : List (Slice × α)}
    (kidsOrdered : OrderedKids ordered low high kids) {kid : Slice × α} (member : kid ∈ kids) :
    Above low kid.1 := by
  induction kids generalizing low with
  | nil => exact absurd member List.not_mem_nil
  | cons first kids ih =>
      obtain ⟨above, -, -, rest⟩ := kidsOrdered
      rcases List.mem_cons.mp member with rfl | later
      · exact above
      · exact above.trans (ih rest later first.1 rfl).le

theorem OrderedKids.upTo {kids : List (Slice × α)} (kidsOrdered : OrderedKids ordered low high kids)
    {kid : Slice × α} (member : kid ∈ kids) : UpTo high kid.1 := by
  induction kids generalizing low with
  | nil => exact absurd member List.not_mem_nil
  | cons first kids ih =>
      obtain ⟨-, upTo, -, rest⟩ := kidsOrdered
      rcases List.mem_cons.mp member with rfl | later
      · exact upTo
      · exact ih rest later

/-- The last pivot is no tighter a lower bound than the upper bound of them all. -/
theorem OrderedKids.above_lastPivot {kids : List (Slice × α)} {pivot : Slice}
    (kidsOrdered : OrderedKids ordered low (some pivot) kids) (above : Above low pivot)
    (less : pivot < key) : Above (lastPivot low kids) key := by
  cases isLast : kids.getLast? with
  | none =>
      rw [List.getLast?_eq_none_iff.mp isLast]
      exact above.trans less.le
  | some last =>
      have upTo := kidsOrdered.upTo (List.mem_of_getLast? isLast) pivot rfl
      intro bound isBound
      have same : last.1 = bound := by simpa [lastPivot, isLast] using isBound
      rw [← same]
      exact upTo.trans_lt less

/-- In every internal page the pivots are strictly increasing. -/
theorem OrderedKids.ascending {kids : List (Slice × α)}
    (kidsOrdered : OrderedKids ordered low high kids) : Lib.Ascending kids := by
  induction kids generalizing low with
  | nil => exact List.Pairwise.nil
  | cons kid kids ih =>
      obtain ⟨-, -, -, rest⟩ := kidsOrdered
      refine List.pairwise_cons.mpr ⟨?_, ih rest⟩
      intro other member
      exact rest.above member kid.1 rfl

end Bounds

theorem Spent.of_newId {height keySize : Nat} {store later : Store}
    {kids : List (Slice × Tree height)} {spent : IndexItems}
    (isSpent : Spent keySize store kids spent) (grows : store.newId ≤ later.newId) :
    Spent keySize later kids spent :=
  { isSpent with used := fun item member => (isSpent.used item member).trans_le grows }

namespace Tree

theorem Ordered.mono {height : Nat} {low high outerLow outerHigh : Option Slice}
    {tree : Tree height} (within : Within low high outerLow outerHigh)
    (ordered : tree.Ordered low high) : tree.Ordered outerLow outerHigh := by
  induction height generalizing low high outerLow outerHigh with
  | zero =>
      obtain ⟨ascending, inside⟩ := ordered
      refine ⟨ascending, ?_⟩
      intro item member
      exact ⟨within.above _ (inside item member).1, within.upTo _ (inside item member).2⟩
  | succ height ih =>
      obtain ⟨nonempty, kids⟩ := ordered
      exact ⟨nonempty, kids.mono ih within⟩

theorem Ordered.inside {height : Nat} {low high : Option Slice} {tree : Tree height}
    (ordered : tree.Ordered low high) {item : Slice × Slice} (member : item ∈ tree.entries) :
    Above low item.1 ∧ UpTo high item.1 := by
  induction height generalizing low high with
  | zero => exact ordered.2 item member
  | succ height ih =>
      obtain ⟨kid, isKid, inKid⟩ := List.mem_flatMap.mp member
      obtain ⟨before, after, split⟩ := List.append_of_mem isKid
      have kids := ordered.2
      rw [split, orderedKids_append] at kids
      obtain ⟨earlier, above, upTo, own, -⟩ := kids
      have inside := ih own inKid
      refine ⟨?_, upTo.trans (inside.2 kid.1 rfl)⟩
      cases isEmpty : before.getLast? with
      | none =>
          rw [List.getLast?_eq_none_iff.mp isEmpty] at inside
          exact inside.1
      | some last =>
          have isLast : lastPivot low before = some last.1 := by simp [lastPivot, isEmpty]
          rw [isLast] at inside
          have lastAbove := earlier.above (List.mem_of_getLast? isEmpty)
          exact lastAbove.trans (inside.1 last.1 rfl).le

theorem leaves_subset {height : Nat} {tree : Tree height} : tree.leaves ⊆ tree.ids := by
  induction height with
  | zero => exact List.Subset.refl _
  | succ height ih =>
      intro id member
      obtain ⟨kid, isKid, inKid⟩ := List.mem_flatMap.mp member
      exact List.mem_cons_of_mem _ (List.mem_flatMap.mpr ⟨kid, isKid, ih inKid⟩)

theorem id_mem_ids {height : Nat} {tree : Tree height} : tree.id ∈ tree.ids := by
  cases height with
  | zero => exact List.mem_singleton_self _
  | succ height => exact List.mem_cons_self

theorem Kept.of_items {height keySize : Nat} {tree : Tree height} {store later : Store}
    (kept : tree.Kept keySize store) (grows : store.newId ≤ later.newId)
    (same : ∀ id ∈ tree.ids, (later.pages id).items = (store.pages id).items) :
    tree.Kept keySize later := by
  induction height with
  | zero =>
      have root := same tree.1 (List.mem_singleton_self _)
      rw [Kept] at kept ⊢
      rw [root]
      exact kept
  | succ height ih =>
      obtain ⟨⟨spent, isSpent, items⟩, kids⟩ := kept
      have root := same tree.1 List.mem_cons_self
      refine ⟨⟨spent, isSpent.of_newId grows, by rw [root]; exact items⟩, ?_⟩
      intro kid isKid
      apply ih (kids kid isKid)
      intro id member
      exact same id (List.mem_cons_of_mem _ (List.mem_flatMap.mpr ⟨kid, isKid, member⟩))

theorem Kept.frame {height keySize : Nat} {tree : Tree height} {store later : Store}
    (kept : tree.Kept keySize store) (grows : store.newId ≤ later.newId)
    (same : ∀ id ∈ tree.ids, later.pages id = store.pages id) : tree.Kept keySize later :=
  kept.of_items grows (fun id member => congrArg Page.items (same id member))

/-- Where four pivots fit, no page has spent entries. -/
theorem Kept.stored {height keySize : Nat} {tree : Tree height} {store : Store}
    (kept : tree.Kept keySize store) (fit : FourPivots keySize) : tree.Stored store.pages := by
  induction height with
  | zero => exact kept
  | succ height ih =>
      obtain ⟨⟨spent, isSpent, items⟩, kids⟩ := kept
      have isNil : spent = [] := isSpent.narrow.resolve_right (not_not_intro fit)
      rw [isNil, List.nil_append] at items
      exact ⟨items, fun kid isKid => ih (kids kid isKid)⟩

end Tree

/-! ## The chain of leaves -/

section Chains

variable {pages other : PageId → Page} {next : PageId}

theorem chained_append {first second : List PageId} :
    Chained pages next (first ++ second) ↔
      Chained pages (second.headD next) first ∧ Chained pages next second := by
  induction first with
  | nil => simp [Chained]
  | cons id first ih =>
      simp only [List.cons_append, Chained, ih, and_assoc]
      have same : (first ++ second).headD next = first.headD (second.headD next) := by
        cases first with
        | nil => rfl
        | cons head tail => rfl
      rw [same]

theorem Chained.of_right {leaves : List PageId} (chained : Chained pages next leaves)
    (same : ∀ id ∈ leaves, (other id).right = (pages id).right) : Chained other next leaves := by
  induction leaves with
  | nil => trivial
  | cons id leaves ih =>
      refine ⟨?_, ih chained.2 (fun later member => same later (List.mem_cons_of_mem _ member))⟩
      rw [same id List.mem_cons_self]
      exact chained.1

theorem Chained.frame {leaves : List PageId} (chained : Chained pages next leaves)
    (same : ∀ id ∈ leaves, other id = pages id) : Chained other next leaves :=
  chained.of_right (fun id member => congrArg Page.right (same id member))

end Chains

/-! ## Subtrees and siblings -/

section Forest

variable {height : Nat}

@[simp] theorem id_leaf (id : PageId) (items : LeafItems) : @Tree.id 0 (id, items) = id := rfl

@[simp] theorem ids_leaf (id : PageId) (items : LeafItems) : @Tree.ids 0 (id, items) = [id] := rfl

@[simp] theorem leaves_leaf (id : PageId) (items : LeafItems) :
    @Tree.leaves 0 (id, items) = [id] := rfl

@[simp] theorem entries_leaf (id : PageId) (items : LeafItems) :
    @Tree.entries 0 (id, items) = items := rfl

section Nodes

variable (id : PageId) (kids : List (Slice × Tree height))

@[simp] theorem id_node : @Tree.id (height + 1) (id, kids) = id := rfl

@[simp] theorem ids_node : @Tree.ids (height + 1) (id, kids) = id :: idsOf kids := rfl

@[simp] theorem leaves_node : @Tree.leaves (height + 1) (id, kids) = leavesOf kids := rfl

@[simp] theorem entries_node : @Tree.entries (height + 1) (id, kids) = entriesOf kids := rfl

end Nodes

/-- What holds of a subtree: its page and the pages below hold it, no page occurs
twice, and its last leaf points to `next`. -/
structure Subtree (keySize valueSize : Nat) (store : Store) (low high : Option Slice)
    (next : PageId) (tree : Tree height) : Prop where
  kept : tree.Kept keySize store
  ordered : tree.Ordered low high
  sized : tree.Sized keySize valueSize
  distinct : tree.ids.Nodup
  used : ∀ id ∈ tree.ids, id < store.newId
  chained : Chained store.pages next tree.leaves

/-- The same for neighbours with their pivots. -/
structure Siblings (keySize valueSize : Nat) (store : Store) (low high : Option Slice)
    (next : PageId) (kids : List (Slice × Tree height)) : Prop where
  kept : ∀ kid ∈ kids, kid.2.Kept keySize store
  ordered : OrderedKids (fun low high kid => kid.Ordered low high) low high kids
  sized : ∀ kid ∈ kids, kid.1.length = keySize ∧ kid.2.Sized keySize valueSize
  distinct : (idsOf kids).Nodup
  used : ∀ id ∈ idsOf kids, id < store.newId
  chained : Chained store.pages next (leavesOf kids)

/-- Only these pages and new ones have changed. -/
structure Changes (ids : List PageId) (before after : Store) : Prop where
  grows : before.newId ≤ after.newId
  height : after.treeHeight = before.treeHeight
  frame : ∀ id, id < before.newId → id ∉ ids → after.pages id = before.pages id

variable {keySize valueSize : Nat} {store later : Store} {low high : Option Slice}
  {next : PageId}

theorem subtree_node_iff {id : PageId} {kids : List (Slice × Tree height)} :
    @Subtree (height + 1) keySize valueSize store low high next (id, kids) ↔
      Indexes keySize store id kids ∧ kids ≠ [] ∧ id ∉ idsOf kids ∧
        id < store.newId ∧ Siblings keySize valueSize store low high next kids := by
  constructor
  · rintro ⟨kept, ordered, sized, distinct, used, chained⟩
    obtain ⟨fresh, kidsDistinct⟩ := List.nodup_cons.mp distinct
    exact ⟨kept.1, ordered.1, fresh, used id List.mem_cons_self, kept.2, ordered.2, sized,
      kidsDistinct, fun other member => used other (List.mem_cons_of_mem _ member), chained⟩
  · rintro ⟨indexes, nonempty, fresh, isUsed, siblings⟩
    refine ⟨⟨indexes, siblings.kept⟩, ⟨nonempty, siblings.ordered⟩, siblings.sized,
      List.nodup_cons.mpr ⟨fresh, siblings.distinct⟩, ?_, siblings.chained⟩
    intro other member
    rcases List.mem_cons.mp member with rfl | member
    · exact isUsed
    · exact siblings.used other member

theorem Siblings.kid {before after : List (Slice × Tree height)} {pivot : Slice}
    {tree : Tree height}
    (siblings : Siblings keySize valueSize store low high next (before ++ (pivot, tree) :: after)) :
    Subtree keySize valueSize store (lastPivot low before) (some pivot)
      ((leavesOf after).headD next) tree := by
  obtain ⟨kept, ordered, sized, distinct, used, chained⟩ := siblings
  have isKid : (pivot, tree) ∈ before ++ (pivot, tree) :: after := by simp
  obtain ⟨-, -, -, own, -⟩ := orderedKids_append.mp ordered
  simp only [idsOf, leavesOf, List.flatMap_append, List.flatMap_cons] at distinct used chained
  refine ⟨kept _ isKid, own, (sized _ isKid).2, ?_, ?_, ?_⟩
  · exact (List.nodup_append.mp (List.nodup_append.mp distinct).2.1).1
  · intro id member
    exact used id (List.mem_append_right _ (List.mem_append_left _ member))
  · exact (chained_append.mp (chained_append.mp chained).2).1

/-- Some new neighbours take the place of one child. -/
theorem Siblings.replace {before after fresh : List (Slice × Tree height)} {pivot : Slice}
    {tree : Tree height}
    (siblings : Siblings keySize valueSize store low high next (before ++ (pivot, tree) :: after))
    (changes : Changes tree.ids store later)
    (replaced : Siblings keySize valueSize later (lastPivot low before) (some pivot)
      ((leavesOf after).headD next) fresh)
    (fromTree : ∀ id ∈ idsOf fresh, id ∈ tree.ids ∨ store.newId ≤ id)
    (sameHead : (leavesOf fresh).head? = tree.leaves.head?) :
    Siblings keySize valueSize later low high next (before ++ (fresh ++ after)) := by
  obtain ⟨kept, ordered, sized, distinct, used, chained⟩ := siblings
  obtain ⟨orderedBefore, abovePivot, upToPivot, own, orderedAfter⟩ :=
    orderedKids_append.mp ordered
  simp only [idsOf, leavesOf, List.flatMap_append, List.flatMap_cons] at distinct used chained
  obtain ⟨distinctBefore, distinctLater, apartBefore⟩ := List.nodup_append.mp distinct
  obtain ⟨distinctTree, distinctAfter, apartAfter⟩ := List.nodup_append.mp distinctLater
  have keepsBefore : ∀ id ∈ idsOf before, later.pages id = store.pages id := by
    intro id member
    apply changes.frame id (used id (List.mem_append_left _ member))
    intro inTree
    exact apartBefore id member id (List.mem_append_left _ inTree) rfl
  have keepsAfter : ∀ id ∈ idsOf after, later.pages id = store.pages id := by
    intro id member
    apply changes.frame id (used id (List.mem_append_right _ (List.mem_append_right _ member)))
    intro inTree
    exact apartAfter id inTree id member rfl
  have memIds : ∀ {kids : List (Slice × Tree height)} {kid}, kid ∈ kids →
      ∀ id ∈ kid.2.ids, id ∈ idsOf kids :=
    fun isKid id member => List.mem_flatMap.mpr ⟨_, isKid, member⟩
  have memLeaves : ∀ {kids : List (Slice × Tree height)}, ∀ id ∈ leavesOf kids,
      id ∈ idsOf kids := by
    intro kids id member
    obtain ⟨kid, isKid, inKid⟩ := List.mem_flatMap.mp member
    exact List.mem_flatMap.mpr ⟨kid, isKid, Tree.leaves_subset inKid⟩
  refine ⟨?_, ?_, ?_, ?_, ?_, ?_⟩
  · intro kid member
    rcases List.mem_append.mp member with inBefore | member
    · exact (kept kid (by simp [inBefore])).frame changes.grows
        (fun id isId => keepsBefore id (memIds inBefore id isId))
    · rcases List.mem_append.mp member with inFresh | inAfter
      · exact replaced.kept kid inFresh
      · exact (kept kid (by simp [inAfter])).frame changes.grows
          (fun id isId => keepsAfter id (memIds inAfter id isId))
  · rw [orderedKids_append, orderedKids_append]
    refine ⟨orderedBefore, ?_, ?_⟩
    · exact replaced.ordered.mono Tree.Ordered.mono (within_some upToPivot)
    · refine orderedAfter.mono Tree.Ordered.mono ⟨?_, fun _ upTo => upTo⟩
      intro key above
      exact replaced.ordered.above_lastPivot abovePivot (above pivot rfl)
  · intro kid member
    rcases List.mem_append.mp member with inBefore | member
    · exact sized kid (by simp [inBefore])
    · rcases List.mem_append.mp member with inFresh | inAfter
      · exact replaced.sized kid inFresh
      · exact sized kid (by simp [inAfter])
  · simp only [idsOf, List.flatMap_append]
    refine List.nodup_append.mpr ⟨distinctBefore,
      List.nodup_append.mpr ⟨replaced.distinct, distinctAfter, ?_⟩, ?_⟩
    · rintro id inFresh _ inAfter rfl
      rcases fromTree id inFresh with inTree | isNew
      · exact apartAfter id inTree id inAfter rfl
      · exact absurd (used id (List.mem_append_right _ (List.mem_append_right _ inAfter)))
          (not_lt.mpr isNew)
    · rintro id inBefore _ member rfl
      rcases List.mem_append.mp member with inFresh | inAfter
      · rcases fromTree id inFresh with inTree | isNew
        · exact apartBefore id inBefore id (List.mem_append_left _ inTree) rfl
        · exact absurd (used id (List.mem_append_left _ inBefore)) (not_lt.mpr isNew)
      · exact apartBefore id inBefore id (List.mem_append_right _ inAfter) rfl
  · intro id member
    simp only [idsOf, List.flatMap_append, List.mem_append] at member
    rcases member with inBefore | inFresh | inAfter
    · exact (used id (List.mem_append_left _ inBefore)).trans_le changes.grows
    · exact replaced.used id inFresh
    · exact (used id (List.mem_append_right _ (List.mem_append_right _ inAfter))).trans_le
        changes.grows
  · obtain ⟨chainedBefore, chainedLater⟩ := chained_append.mp chained
    obtain ⟨-, chainedAfter⟩ := chained_append.mp chainedLater
    simp only [leavesOf, List.flatMap_append]
    refine chained_append.mpr ⟨?_, chained_append.mpr ⟨replaced.chained, ?_⟩⟩
    · have headSame : (leavesOf fresh ++ leavesOf after).headD next =
          (tree.leaves ++ leavesOf after).headD next := by
        rw [List.headD_eq_head?_getD, List.headD_eq_head?_getD, List.head?_append,
          List.head?_append, sameHead]
      rw [leavesOf, leavesOf] at headSame
      rw [headSame]
      exact chainedBefore.frame (fun id member => keepsBefore id (memLeaves id member))
    · exact chainedAfter.frame (fun id member => keepsAfter id (memLeaves id member))

theorem Siblings.single {pivot : Slice} {tree : Tree height}
    (subtree : Subtree keySize valueSize store low (some pivot) next tree)
    (above : Above low pivot) (upTo : UpTo high pivot) (sized : pivot.length = keySize) :
    Siblings keySize valueSize store low high next [(pivot, tree)] := by
  obtain ⟨kept, ordered, treeSized, distinct, used, chained⟩ := subtree
  refine ⟨?_, ⟨above, upTo, ordered, trivial⟩, ?_, ?_, ?_, ?_⟩
  · intro kid member
    rw [List.mem_singleton.mp member]
    exact kept
  · intro kid member
    rw [List.mem_singleton.mp member]
    exact ⟨sized, treeSized⟩
  · simpa [idsOf] using distinct
  · simpa [idsOf] using used
  · simpa [leavesOf] using chained

/-- Two lists of neighbours in a row, on different pages. -/
theorem Siblings.append {first second : List (Slice × Tree height)} {middle : Option Slice}
    (earlier : Siblings keySize valueSize store low middle ((leavesOf second).headD next) first)
    (later : Siblings keySize valueSize store (lastPivot low first) high next second)
    (within : ∀ key, UpTo middle key → UpTo high key)
    (apart : ∀ id ∈ idsOf first, id ∉ idsOf second) :
    Siblings keySize valueSize store low high next (first ++ second) := by
  refine ⟨?_, ?_, ?_, ?_, ?_, ?_⟩
  · intro kid member
    exact (List.mem_append.mp member).elim (earlier.kept kid) (later.kept kid)
  · rw [orderedKids_append]
    exact ⟨earlier.ordered.mono Tree.Ordered.mono ⟨fun _ above => above, within⟩, later.ordered⟩
  · intro kid member
    exact (List.mem_append.mp member).elim (earlier.sized kid) (later.sized kid)
  · rw [idsOf, List.flatMap_append]
    refine List.nodup_append.mpr ⟨earlier.distinct, later.distinct, ?_⟩
    rintro id inFirst _ inSecond rfl
    exact apart id inFirst inSecond
  · intro id member
    rw [idsOf, List.flatMap_append] at member
    exact (List.mem_append.mp member).elim (earlier.used id) (later.used id)
  · rw [leavesOf, List.flatMap_append]
    exact chained_append.mpr ⟨earlier.chained, later.chained⟩

/-- Siblings that are parted behind some pivot. -/
theorem Siblings.split {first second : List (Slice × Tree height)} (nonempty : first ≠ [])
    (siblings : Siblings keySize valueSize store low high next (first ++ second)) :
    Siblings keySize valueSize store low (lastPivot none first)
        ((leavesOf second).headD next) first ∧
      Siblings keySize valueSize store (lastPivot none first) high next second ∧
      ∀ id ∈ idsOf first, id ∉ idsOf second := by
  obtain ⟨kept, ordered, sized, distinct, used, chained⟩ := siblings
  rw [orderedKids_append] at ordered
  rw [idsOf, List.flatMap_append] at distinct used
  rw [leavesOf, List.flatMap_append, chained_append] at chained
  obtain ⟨distinctFirst, distinctSecond, apart⟩ := List.nodup_append.mp distinct
  have sameBound : lastPivot low first = lastPivot none first := by
    obtain ⟨front, last, rfl⟩ := List.eq_nil_or_concat first |>.resolve_left nonempty
    rw [List.concat_eq_append, lastPivot_append_singleton, lastPivot_append_singleton]
  refine ⟨⟨?_, ordered.1.upTo_last nonempty, ?_, distinctFirst, ?_, chained.1⟩,
    ⟨?_, by rw [← sameBound]; exact ordered.2, ?_, distinctSecond, ?_, chained.2⟩, ?_⟩
  · exact fun kid member => kept kid (List.mem_append_left _ member)
  · exact fun kid member => sized kid (List.mem_append_left _ member)
  · exact fun id member => used id (List.mem_append_left _ member)
  · exact fun kid member => kept kid (List.mem_append_right _ member)
  · exact fun kid member => sized kid (List.mem_append_right _ member)
  · exact fun id member => used id (List.mem_append_right _ member)
  · intro id inFirst inSecond
    exact apart id inFirst id inSecond rfl

theorem Siblings.upTo_last {kids : List (Slice × Tree height)} (nonempty : kids ≠ [])
    (siblings : Siblings keySize valueSize store low high next kids) :
    Siblings keySize valueSize store low (lastPivot none kids) next kids :=
  ⟨siblings.kept, siblings.ordered.upTo_last nonempty, siblings.sized, siblings.distinct,
    siblings.used, siblings.chained⟩

theorem Siblings.frame {kids : List (Slice × Tree height)}
    (siblings : Siblings keySize valueSize store low high next kids)
    (grows : store.newId ≤ later.newId)
    (same : ∀ id ∈ idsOf kids, later.pages id = store.pages id) :
    Siblings keySize valueSize later low high next kids := by
  obtain ⟨kept, ordered, sized, distinct, used, chained⟩ := siblings
  refine ⟨?_, ordered, sized, distinct, fun id member => (used id member).trans_le grows, ?_⟩
  · intro kid isKid
    apply (kept kid isKid).frame grows
    intro id member
    exact same id (List.mem_flatMap.mpr ⟨kid, isKid, member⟩)
  · apply chained.frame
    intro id member
    obtain ⟨kid, isKid, inKid⟩ := List.mem_flatMap.mp member
    exact same id (List.mem_flatMap.mpr ⟨kid, isKid, Tree.leaves_subset inKid⟩)

/-- The last pivot is raised to a key. -/
theorem Siblings.raise {front : List (Slice × Tree height)} {pivot key : Slice}
    {tree : Tree height}
    (siblings : Siblings keySize valueSize store low high next (front ++ [(pivot, tree)]))
    (upTo : UpTo high key) (sized : key.length = keySize) :
    Siblings keySize valueSize store low high next (front ++ [(max pivot key, tree)]) := by
  obtain ⟨kept, ordered, kidsSized, distinct, used, chained⟩ := siblings
  obtain ⟨orderedFront, above, upToPivot, own, -⟩ := orderedKids_append.mp ordered
  have raised : UpTo high (max pivot key) :=
    fun bound isBound => max_le (upToPivot bound isBound) (upTo bound isBound)
  refine ⟨?_, ?_, ?_, ?_, ?_, ?_⟩
  · intro kid member
    rcases List.mem_append.mp member with inFront | isLast
    · exact kept kid (List.mem_append_left _ inFront)
    · rw [List.mem_singleton.mp isLast]
      exact kept (pivot, tree) (by simp)
  · rw [orderedKids_append]
    refine ⟨orderedFront, above.trans (le_max_left ..), raised, ?_, trivial⟩
    apply own.mono
    apply within_some
    intro bound isBound
    cases isBound
    exact le_max_left ..
  · intro kid member
    rcases List.mem_append.mp member with inFront | isLast
    · exact kidsSized kid (List.mem_append_left _ inFront)
    · have last := kidsSized (pivot, tree) (by simp)
      rw [List.mem_singleton.mp isLast]
      refine ⟨?_, last.2⟩
      rcases max_choice pivot key with isPivot | isKey
      · simp only [isPivot, last.1]
      · simp only [isKey, sized]
  · simpa [idsOf] using distinct
  · simpa [idsOf] using used
  · simpa [leavesOf] using chained

/-! ## Entries -/

/-- A key gets the value, or loses its entry; the entries of the other keys stay. -/
def Edited (key : Slice) (value : Option Slice) (before after : LeafItems) : Prop :=
  ∀ item, item ∈ after ↔ (∃ own ∈ value, item = (key, own)) ∨ (item ∈ before ∧ item.1 ≠ key)

/-- The entries of the other children stay as they are, for the key is none of
theirs. -/
theorem edited_siblings {before after fresh : List (Slice × Tree height)} {pivot key : Slice}
    {value : Option Slice} {tree : Tree height}
    (siblings : Siblings keySize valueSize store low high next (before ++ (pivot, tree) :: after))
    (above : Above (lastPivot low before) key) (upTo : key ≤ pivot)
    (edited : Edited key value tree.entries (entriesOf fresh)) :
    Edited key value (entriesOf (before ++ (pivot, tree) :: after))
      (entriesOf (before ++ (fresh ++ after))) := by
  have elsewhere : ∀ item ∈ entriesOf before ++ entriesOf after, item.1 ≠ key := by
    obtain ⟨orderedBefore, -, -, -, orderedAfter⟩ := orderedKids_append.mp siblings.ordered
    intro item member
    rcases List.mem_append.mp member with inBefore | inAfter
    · obtain ⟨kid, isKid, inKid⟩ := List.mem_flatMap.mp inBefore
      have nonempty : before ≠ [] := List.ne_nil_of_mem isKid
      obtain ⟨front, last, isConcat⟩ := List.eq_nil_or_concat before |>.resolve_left nonempty
      have bounded : @Tree.Ordered (height + 1) none (lastPivot none before) (0, before) :=
        ⟨nonempty, (orderedBefore.upTo_last nonempty).mono Tree.Ordered.mono
          ⟨fun _ _ _ isBound => (Option.not_mem_none _ isBound).elim, fun _ upTo => upTo⟩⟩
      have below := (bounded.inside inBefore).2
      rw [List.concat_eq_append] at isConcat
      rw [isConcat, lastPivot_append_singleton] at above below
      exact ((below last.1 rfl).trans_lt (above last.1 rfl)).ne
    · have nonempty : after ≠ [] := by
        obtain ⟨kid, isKid, -⟩ := List.mem_flatMap.mp inAfter
        exact List.ne_nil_of_mem isKid
      have bounded : @Tree.Ordered (height + 1) (some pivot) high (0, after) :=
        ⟨nonempty, orderedAfter⟩
      exact (upTo.trans_lt ((bounded.inside inAfter).1 pivot rfl)).ne'
  intro item
  have own := edited item
  have others := elsewhere item
  simp only [entriesOf, List.flatMap_append, List.flatMap_cons, List.mem_append] at own others ⊢
  rw [own]
  constructor
  · rintro (inBefore | (isNew | ⟨inTree, different⟩) | inAfter)
    · exact .inr ⟨.inl inBefore, others (.inl inBefore)⟩
    · exact .inl isNew
    · exact .inr ⟨.inr (.inl inTree), different⟩
    · exact .inr ⟨.inr (.inr inAfter), others (.inr inAfter)⟩
  · rintro (isNew | ⟨inBefore | inTree | inAfter, different⟩)
    · exact .inr (.inl (.inl isNew))
    · exact .inl inBefore
    · exact .inr (.inl (.inr ⟨inTree, different⟩))
    · exact .inr (.inr inAfter)

end Forest

end AhaTree.Btree
