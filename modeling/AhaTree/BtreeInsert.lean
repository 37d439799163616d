import AhaTree.BtreeShape

/-!
# Inserting into a subtree

One induction over the depth says what `Insert` does below a page: the subtree
takes the entry, or its page splits, and then the page was not safe, so that its
parent is still on the stack.  `SearchDown` releases the parents of a safe page;
what is left of the stack is therefore all that the overflow can reach.
-/

namespace AhaTree.Btree

open Store

variable {height : Nat} {keySize valueSize : Nat} {key value : Slice} {store later : Store}
  {low high : Option Slice} {next : PageId}

/-- The subtree has taken the new value of the key, or has lost the key. -/
structure Takes (keySize valueSize : Nat) (key : Slice) (edit : Option Slice)
    (store later : Store)
    (low high : Option Slice) (next : PageId) (tree grown : Tree height) : Prop where
  changes : Changes tree.ids store later
  subtree : Subtree keySize valueSize later low high next grown
  sameId : grown.id = tree.id
  fromTree : ∀ id ∈ grown.ids, id ∈ tree.ids ∨ store.newId ≤ id
  sameHead : grown.leaves.head? = tree.leaves.head?
  edited : Edited key edit tree.entries grown.entries

/-- What comes in the place of a page that has split: two subtrees, or one that has
left the page. -/
inductive Replaces (keySize : Nat) (obsolete : PageId) :
    IndexItems → List (Slice × Tree height) → Prop where
  | halves {lowKid highKid : Slice × Tree height} : lowKid.2.id = obsolete →
      Replaces keySize obsolete [] [lowKid, highKid]
  | emptied {kid : Slice × Tree height} : obsolete ∉ kid.2.ids → ¬ FourPivots keySize →
      Replaces keySize obsolete [([], obsolete)] [kid]

/-- The subtree has taken the entry, and its page has split. -/
structure Splits (keySize valueSize : Nat) (key value : Slice) (store later : Store)
    (low high : Option Slice) (next : PageId) (tree : Tree height)
    (spent : IndexItems) (fresh : List (Slice × Tree height)) : Prop where
  changes : Changes tree.ids store later
  siblings : Siblings keySize valueSize later low high next fresh
  replaces : Replaces keySize tree.id spent fresh
  fromTree : ∀ id ∈ idsOf fresh, id ∈ tree.ids ∨ store.newId ≤ id
  sameHead : (leavesOf fresh).head? = tree.leaves.head?
  edited : Edited key (some value) tree.entries (entriesOf fresh)

/-- What `HandleOverflow` does from some page on. -/
def finish (stack used : List PageId) (fresh : IndexItems) (obsolete : PageId) : Code Unit := do
  let (left, used, fresh) ← insertUpward stack used fresh obsolete
  (if fresh = [] then pure () else splitRoot fresh : Code Unit)
  unlockParents left
  unlockParents used

/-- The outcomes of an insertion below a page that stands above `stack`. -/
inductive Inserts (keySize valueSize : Nat) (key value : Slice) (store : Store)
    (low high : Option Slice) (next : PageId) (tree : Tree height) (stack : List PageId) :
    Except Failure (Unit × Store) → Prop where
  | noSpace : Inserts keySize valueSize key value store low high next tree stack
      (.error .noSpace)
  | takes {later : Store} {grown : Tree height} :
      Takes keySize valueSize key (some value) store later low high next tree grown →
      Inserts keySize valueSize key value store low high next tree stack (.ok ((), later))
  | splits {later : Store} {used : List PageId} {spent : IndexItems}
      {fresh : List (Slice × Tree height)} :
      safeNode (store.pages tree.id) key value = false →
      Splits keySize valueSize key value store later low high next tree spent fresh →
      Inserts keySize valueSize key value store low high next tree stack
        (exec (finish stack used (spent ++ indexOf fresh) tree.id) later)

/-! ## Changes -/

theorem Changes.trans {ids more : List PageId} {last : Store}
    (first : Changes ids store later) (second : Changes more later last)
    (fromFirst : ∀ id ∈ more, id ∈ ids ∨ store.newId ≤ id) : Changes ids store last := by
  refine ⟨first.grows.trans second.grows, second.height.trans first.height, ?_⟩
  intro id used outside
  rw [second.frame id (used.trans_le first.grows), first.frame id used outside]
  intro inMore
  rcases fromFirst id inMore with inIds | isNew
  · exact outside inIds
  · exact absurd used (not_lt.mpr isNew)

theorem changes_write (store : Store) {id : PageId} {ids : List PageId} (page : Page)
    (inside : id ∈ ids ∨ store.newId ≤ id) : Changes ids store (store.write id page) := by
  refine ⟨le_rfl, rfl, ?_⟩
  intro other used outside
  apply write_pages_of_ne
  rintro rfl
  rcases inside with inIds | isNew
  · exact outside inIds
  · exact absurd used (not_lt.mpr isNew)

theorem changes_allocated (ids : List PageId) (store : Store) :
    Changes ids store store.allocated :=
  ⟨Nat.le_succ _, rfl, fun _ used _ => allocated_pages store used⟩

/-! ## The leaf -/

theorem le_last_of_ascending {β : Type} {front : List (Slice × β)} {last : Slice × β}
    (ascending : Lib.Ascending (front ++ [last])) {item : Slice × β}
    (member : item ∈ front ++ [last]) : item.1 ≤ last.1 := by
  rcases List.mem_append.mp member with inFront | isLast
  · exact ((Lib.ascending_append.mp ascending).2.2 item inFront last (by simp)).le
  · rw [List.mem_singleton.mp isLast]

/-- A leaf with room keeps its page. -/
theorem takes_leaf {id : PageId} {items : LeafItems}
    (keySized : key.length = keySize) (valueSized : value.length = valueSize)
    (above : Above low key) (upTo : UpTo high key)
    (subtree : @Subtree 0 keySize valueSize store low high next (id, items)) :
    @Takes 0 keySize valueSize key (some value) store
      (store.write id { store.pages id with items := .leaf (Lib.place key value items) })
      low high next (id, items) (id, Lib.place key value items) := by
  obtain ⟨kept, ordered, sized, distinct, used, chained⟩ := subtree
  refine ⟨changes_write store _ (.inl List.mem_cons_self), ⟨?_, ?_, ?_, distinct, used, ?_⟩,
    rfl, fun _ member => .inl member, rfl, ?_⟩
  · simp [Tree.Kept]
  · refine ⟨Lib.Ascending.place ordered.1, ?_⟩
    intro item member
    rcases Lib.mem_place.mp member with rfl | ⟨isOld, -⟩
    · exact ⟨above, upTo⟩
    · exact ordered.2 item isOld
  · intro item member
    rcases Lib.mem_place.mp member with rfl | ⟨isOld, -⟩
    · exact ⟨keySized, valueSized⟩
    · exact sized item isOld
  · refine ⟨?_, trivial⟩
    simpa using chained.1
  · intro item
    rw [entries_leaf, entries_leaf, Lib.mem_place]
    simp

/-- Two leaves on a page and on a new one, with a key that parts them. -/
theorem siblings_of_halves {id child : PageId} {lowItems highItems : LeafItems} {parting : Slice}
    (distinct : id ≠ child) (idUsed : id < store.newId) (childUsed : child < store.newId)
    (lowPage : (store.pages id).items = .leaf lowItems) (linked : (store.pages id).right = child)
    (highPage : (store.pages child).items = .leaf highItems)
    (last : (store.pages child).right = next)
    (lowAscending : Lib.Ascending lowItems) (highAscending : Lib.Ascending highItems)
    (lowNonempty : lowItems ≠ []) (highNonempty : highItems ≠ [])
    (below : ∀ item ∈ lowItems, item.1 < parting)
    (behind : ∀ item ∈ highItems, parting ≤ item.1)
    (inside : ∀ item ∈ lowItems ++ highItems, Above low item.1 ∧ UpTo high item.1)
    (sized : ∀ item ∈ lowItems ++ highItems,
      item.1.length = keySize ∧ item.2.length = valueSize) :
    @Siblings 0 keySize valueSize store low high next
      [(pageHighkey (leafKeys lowItems), (id, lowItems)),
        (pageHighkey (leafKeys highItems), (child, highItems))] := by
  obtain ⟨lowFront, lowLast, rfl⟩ := List.eq_nil_or_concat lowItems |>.resolve_left lowNonempty
  obtain ⟨highFront, highLast, rfl⟩ :=
    List.eq_nil_or_concat highItems |>.resolve_left highNonempty
  simp only [List.concat_eq_append] at *
  rw [leafKeys_eq, leafKeys_eq, pageHighkey_append, pageHighkey_append]
  have lowMember : lowLast ∈ lowFront ++ [lowLast] := by simp
  have highMember : highLast ∈ highFront ++ [highLast] := by simp
  have lowInside := inside lowLast (List.mem_append_left _ lowMember)
  have highInside := inside highLast (List.mem_append_right _ highMember)
  refine ⟨?_, ?_, ?_, ?_, ?_, ?_⟩
  · intro kid member
    rcases List.mem_cons.mp member with rfl | member
    · exact lowPage
    · rw [List.mem_singleton.mp member]
      exact highPage
  · refine ⟨lowInside.1, lowInside.2, ⟨lowAscending, ?_⟩, ?_, highInside.2, ⟨highAscending, ?_⟩,
      trivial⟩
    · intro item member
      refine ⟨(inside item (List.mem_append_left _ member)).1, ?_⟩
      intro bound isBound
      cases isBound
      exact le_last_of_ascending lowAscending member
    · intro bound isBound
      cases isBound
      exact (below lowLast lowMember).trans_le (behind highLast highMember)
    · intro item member
      constructor
      · intro bound isBound
        cases isBound
        exact (below lowLast lowMember).trans_le (behind item member)
      · intro bound isBound
        cases isBound
        exact le_last_of_ascending highAscending member
  · intro kid member
    rcases List.mem_cons.mp member with rfl | member
    · exact ⟨(sized lowLast (List.mem_append_left _ lowMember)).1,
        fun item isItem => sized item (List.mem_append_left _ isItem)⟩
    · rw [List.mem_singleton.mp member]
      exact ⟨(sized highLast (List.mem_append_right _ highMember)).1,
        fun item isItem => sized item (List.mem_append_right _ isItem)⟩
  · simpa [idsOf] using distinct
  · intro other member
    simp only [idsOf, List.flatMap_cons, List.flatMap_nil, ids_leaf, List.append_nil,
      List.mem_append, List.mem_singleton] at member
    rcases member with rfl | rfl
    · exact idUsed
    · exact childUsed
  · exact ⟨linked, last, trivial⟩

/-- The store in which a leaf has given its upper half to a new page. -/
def leafHalves (store : Store) (id : PageId) (lowItems highItems : LeafItems) : Store :=
  (store.allocated.write id { items := .leaf lowItems, left := 0, right := store.newId }).write
    store.newId { items := .leaf highItems, left := 0, right := (store.pages id).right }

theorem splits_leaf {id : PageId} {items lowItems highItems : LeafItems} {parting : Slice}
    (keySized : key.length = keySize) (valueSized : value.length = valueSize)
    (above : Above low key) (upTo : UpTo high key)
    (subtree : @Subtree 0 keySize valueSize store low high next (id, items))
    (lowAscending : Lib.Ascending lowItems) (highAscending : Lib.Ascending highItems)
    (lowNonempty : lowItems ≠ []) (highNonempty : highItems ≠ [])
    (below : ∀ item ∈ lowItems, item.1 < parting)
    (behind : ∀ item ∈ highItems, parting ≤ item.1)
    (members : ∀ item, item ∈ lowItems ++ highItems ↔
      item = (key, value) ∨ (item ∈ items ∧ item.1 ≠ key)) :
    @Splits 0 keySize valueSize key value store (leafHalves store id lowItems highItems)
      low high next (id, items) []
      [(pageHighkey (leafKeys lowItems), (id, lowItems)),
        (pageHighkey (leafKeys highItems), (store.newId, highItems))] := by
  obtain ⟨kept, ordered, sized, distinct, used, chained⟩ := subtree
  have isUsed : id < store.newId := used id List.mem_cons_self
  have isNext : (store.pages id).right = next := chained.1
  have atId : (leafHalves store id lowItems highItems).pages id =
      { items := .leaf lowItems, left := 0, right := store.newId } := by
    rw [leafHalves, write_pages_of_ne _ _ _ isUsed.ne, write_pages_self]
  have atChild : (leafHalves store id lowItems highItems).pages store.newId =
      { items := .leaf highItems, left := 0, right := (store.pages id).right } := by
    rw [leafHalves, write_pages_self]
  refine ⟨?_, ?_, .halves rfl, ?_, rfl, ?_⟩
  · have allocates := changes_allocated [id] store
    have lowWritten := allocates.trans (changes_write store.allocated
      { items := .leaf lowItems, left := 0, right := store.newId }
      (.inl (List.mem_singleton_self id))) (fun _ member => .inl member)
    exact lowWritten.trans (changes_write _ _ (.inl (List.mem_singleton_self store.newId)))
      (fun _ member => .inr (List.mem_singleton.mp member).ge)
  · apply siblings_of_halves isUsed.ne (Nat.lt_succ_of_lt isUsed) (Nat.lt_succ_self _)
      (by rw [atId]) (by rw [atId]) (by rw [atChild]) (by rw [atChild, isNext])
      lowAscending highAscending lowNonempty highNonempty below behind
    · intro item member
      rcases (members item).mp member with rfl | ⟨isOld, -⟩
      · exact ⟨above, upTo⟩
      · exact ordered.2 item isOld
    · intro item member
      rcases (members item).mp member with rfl | ⟨isOld, -⟩
      · exact ⟨keySized, valueSized⟩
      · exact sized item isOld
  · intro other member
    simp only [idsOf, List.flatMap_cons, List.flatMap_nil, ids_leaf, List.append_nil,
      List.mem_append, List.mem_singleton] at member ⊢
    rcases member with isId | isNew
    · exact .inl isId
    · exact .inr isNew.ge
  · intro item
    have own := members item
    simp only [entriesOf, List.flatMap_cons, List.flatMap_nil, entries_leaf, List.append_nil]
    rw [own]
    simp

/-- The middle entry of a leaf parts its halves. -/
theorem halves_of_ascending {items : LeafItems} (ascending : Lib.Ascending items) :
    (∀ item ∈ items.take (items.length / 2),
        item.1 < pageReadPivotAtOffset (leafKeys items) (items.length / 2)) ∧
      ∀ item ∈ items.drop (items.length / 2),
        pageReadPivotAtOffset (leafKeys items) (items.length / 2) ≤ item.1 := by
  rcases items.length.eq_zero_or_pos with isEmpty | positive
  · rw [List.length_eq_zero_iff.mp isEmpty]
    simp
  · have inside : items.length / 2 < items.length := Nat.div_lt_self positive (by decide)
    rw [leafKeys_eq, readPivot_eq inside]
    generalize items.length / 2 = middle at inside ⊢
    have parted := List.take_append_drop middle items
    rw [List.drop_eq_getElem_cons inside] at parted ⊢
    have ordered := ascending
    rw [← parted] at ordered
    obtain ⟨-, later, less⟩ := Lib.ascending_append.mp ordered
    refine ⟨fun item member => less item member _ List.mem_cons_self, ?_⟩
    intro item member
    rcases List.mem_cons.mp member with rfl | member
    · exact le_rfl
    · exact ((List.pairwise_cons.mp later).1 item member).le

/-- The lower half of a leaf with one entry has none, and then there is no room for
the new entry on the upper half. -/
theorem exec_insertAndSplitLeafPages {id : PageId} {items : LeafItems} (nonempty : key ≠ [])
    (keySized : key.length = keySize) (valueSized : value.length = valueSize)
    (above : Above low key) (upTo : UpTo high key)
    (subtree : @Subtree 0 keySize valueSize store low high next (id, items))
    (full : leafFree items < leafSpace key value) :
    exec (insertAndSplitLeafPages id key value) store = .error .noSpace ∨
      ∃ later, ∃ fresh : List (Slice × Tree 0),
        exec (insertAndSplitLeafPages id key value) store = .ok (indexOf fresh, later) ∧
        @Splits 0 keySize valueSize key value store later low high next (id, items) []
          fresh := by
  have isLeaf : (store.pages id).items = .leaf items := subtree.kept
  have ascending : Lib.Ascending items := subtree.ordered.1
  have sized : ∀ item ∈ items, item.1.length = keySize ∧ item.2.length = valueSize :=
    subtree.sized
  have keysNonempty : ∀ item ∈ items, item.1 ≠ [] := by
    intro item member isNil
    have width := (sized item member).1
    rw [isNil, ← keySized] at width
    exact nonempty (List.eq_nil_of_length_eq_zero width.symm)
  obtain ⟨below, behind⟩ := halves_of_ascending ascending
  have lowMoved := pageMoveLeafEntries_eq ascending (fun item member => (sized item member).2)
    keysNonempty 0 (items.length / 2)
  have highMoved := pageMoveLeafEntries_eq ascending (fun item member => (sized item member).2)
    keysNonempty (items.length / 2) items.length
  rw [List.drop_zero] at lowMoved
  rw [List.take_length] at highMoved
  have lowAscending : Lib.Ascending (items.take (items.length / 2)) :=
    ascending.sublist (List.take_sublist ..)
  have highAscending : Lib.Ascending (items.drop (items.length / 2)) :=
    ascending.sublist (List.drop_sublist ..)
  have sameLow : ∀ item ∈ items.take (items.length / 2), item.2.length = value.length := by
    intro item member
    rw [(sized item (List.mem_of_mem_take member)).2, valueSized]
  have sameHigh : ∀ item ∈ items.drop (items.length / 2), item.2.length = value.length := by
    intro item member
    rw [(sized item (List.mem_of_mem_drop member)).2, valueSized]
  have lowInserted := pageInsertLeafEntry_eq lowAscending nonempty sameLow
  have highInserted := pageInsertLeafEntry_eq highAscending nonempty sameHigh
  rw [insertAndSplitLeafPages, exec_pin, isLeaf]
  simp only [exec_allocate, exec_writeLock]
  rcases lowMoved with noSpace | lowMoved
  · rw [noSpace, exec_orAbort_error]
    exact .inl rfl
  rcases highMoved with noSpace | highMoved
  · rw [lowMoved, exec_orAbort_ok, noSpace, exec_orAbort_error]
    exact .inl rfl
  rw [lowMoved, exec_orAbort_ok, highMoved, exec_orAbort_ok]
  simp only [Ordering.isLT_iff_eq_lt, Slice.compare_eq_lt]
  by_cases belongsLow : key < pageReadPivotAtOffset (leafKeys items) (items.length / 2)
  · simp only [if_pos belongsLow]
    rcases lowInserted with noSpace | lowInserted
    · rw [noSpace, exec_orAbort_error]
      exact .inl rfl
    rw [lowInserted, exec_orAbort_ok]
    have highNonempty : items.drop (items.length / 2) ≠ [] := by
      rw [← List.length_pos_iff, List.length_drop]
      rcases items with _ | ⟨first, rest⟩
      · exact absurd belongsLow (List.not_lt_nil _)
      · rw [List.length_cons]
        omega
    refine .inr ⟨_, _, rfl, splits_leaf keySized valueSized above upTo subtree
      lowAscending.place highAscending ?_ highNonempty ?_ behind ?_⟩
    · exact List.append_ne_nil_of_right_ne_nil _ (List.cons_ne_nil _ _)
    · intro item member
      rcases Lib.mem_place.mp member with rfl | ⟨isOld, -⟩
      · exact belongsLow
      · exact below item isOld
    · intro item
      rw [Lib.mem_place_append_low fun other inHigh =>
        (belongsLow.trans_le (behind other inHigh)).ne', List.take_append_drop, Lib.mem_place]
  · simp only [if_neg belongsLow]
    rcases highInserted with noSpace | highInserted
    · rw [noSpace]
      exact .inl rfl
    have lowNonempty : items.take (items.length / 2) ≠ [] := by
      intro isNil
      rw [List.take_eq_nil_iff] at isNil
      have whole : items.drop (items.length / 2) = items := by
        rcases isNil with isZero | rfl
        · rw [isZero, List.drop_zero]
        · rfl
      rw [whole, pageInsertLeafEntry, if_pos full.le] at highInserted
      cases highInserted
    rw [highInserted]
    have notAbove := not_lt.mp belongsLow
    refine .inr ⟨_, _, rfl, splits_leaf keySized valueSized above upTo subtree
      lowAscending highAscending.place lowNonempty ?_ below ?_ ?_⟩
    · exact List.append_ne_nil_of_right_ne_nil _ (List.cons_ne_nil _ _)
    · intro item member
      rcases Lib.mem_place.mp member with rfl | ⟨isOld, -⟩
      · exact notAbove
      · exact behind item isOld
    · intro item
      rw [Lib.mem_place_append_high fun other inLow =>
        ((below other inLow).trans_le notAbove).ne, List.take_append_drop, Lib.mem_place]

/-- `Insert` at the leaf that `SearchDown` has found. -/
theorem inserts_leaf {id : PageId} {items : LeafItems} (nonempty : key ≠ [])
    (keySized : key.length = keySize) (valueSized : value.length = valueSize)
    (above : Above low key) (upTo : UpTo high key)
    (subtree : @Subtree 0 keySize valueSize store low high next (id, items))
    (stack : List PageId) :
    @Inserts 0 keySize valueSize key value store low high next (id, items) stack
      (exec (insertOnPath key value (id :: stack)) store) := by
  have isLeaf : (store.pages id).items = .leaf items := subtree.kept
  have ascending : Lib.Ascending items := subtree.ordered.1
  have same : ∀ item ∈ items, item.2.length = value.length := by
    intro item member
    rw [valueSized]
    exact (subtree.sized item member).2
  have tried : exec (tryInsertLeaf id key value) store =
      if leafFree items < leafSpace key value then .ok (false, store)
      else exec (do
        let items ← orAbort (pageInsertLeafEntry items key value)
        put id { store.pages id with items := .leaf items }
        pure true) store := by
    rw [tryInsertLeaf, exec_pin, isLeaf]
    simp only
    split
    · rfl
    · rfl
  rw [insertOnPath]
  by_cases full : leafFree items < leafSpace key value
  · rw [if_pos full] at tried
    rw [exec_bind_ok tried]
    simp only [Bool.false_eq_true, if_false, handleOverflow]
    rcases exec_insertAndSplitLeafPages nonempty keySized valueSized above upTo subtree full
      with noSpace | ⟨later, fresh, ran, splits⟩
    · rw [exec_bind_error noSpace]
      exact .noSpace
    · rw [exec_bind_ok ran]
      refine @Inserts.splits 0 _ _ _ _ _ _ _ _ (id, items) _ later [id] [] fresh ?_ splits
      rw [id_leaf, safeNode, isLeaf, Page.getFreeSpace, isLeaf]
      simpa using full
  · rw [if_neg full] at tried
    rcases pageInsertLeafEntry_eq ascending nonempty same with noSpace | inserted
    · rw [noSpace, exec_orAbort_error] at tried
      rw [exec_bind_error tried]
      exact .noSpace
    · rw [inserted, exec_orAbort_ok] at tried
      rw [exec_bind_ok tried]
      simp only [if_true, exec_unlockParents_last]
      exact .takes (takes_leaf keySized valueSized above upTo subtree)

/-! ## The page above -/

@[simp] theorem indexOf_append (first second : List (Slice × Tree height)) :
    indexOf (first ++ second) = indexOf first ++ indexOf second :=
  List.map_append

@[simp] theorem indexOf_cons (kid : Slice × Tree height) (kids : List (Slice × Tree height)) :
    indexOf (kid :: kids) = (kid.1, kid.2.id) :: indexOf kids := rfl

@[simp] theorem length_indexOf (kids : List (Slice × Tree height)) :
    List.length (indexOf kids) = kids.length :=
  List.length_map _

theorem ascending_indexOf {kids : List (Slice × Tree height)} (ascending : Lib.Ascending kids) :
    Lib.Ascending (indexOf kids) := by
  exact List.pairwise_map.mpr ascending

theorem keyed_of_sized {kids : List (Slice × Tree height)} (nonempty : key ≠ [])
    (keySized : key.length = keySize) (sized : ∀ kid ∈ kids, kid.1.length = keySize) :
    ∀ item ∈ indexOf kids, item.1 ≠ [] := by
  intro item member isNil
  obtain ⟨kid, isKid, rfl⟩ := List.mem_map.mp member
  have width := sized kid isKid
  rw [show kid.1 = [] from isNil, ← keySized] at width
  exact nonempty (List.eq_nil_of_length_eq_zero width.symm)

/-- `MayUpdateHighkey` on the way down. -/
theorem raise_node {id : PageId} {kids : List (Slice × Tree height)} {spent : IndexItems}
    (keySized : key.length = keySize) (upTo : UpTo high key) (nonempty : kids ≠ [])
    (apart : id ∉ idsOf kids)
    (siblings : Siblings keySize valueSize store low high next kids) :
    ∃ front, ∃ last : Slice × Tree height, mayUpdateHighkey (spent ++ indexOf kids) key =
        spent ++ indexOf (front ++ [last]) ∧
      key ≤ last.1 ∧
      (∀ page, Siblings keySize valueSize (store.write id page) low high next
        (front ++ [last])) ∧
      idsOf (front ++ [last]) = idsOf kids ∧ leavesOf (front ++ [last]) = leavesOf kids ∧
      entriesOf (front ++ [last]) = entriesOf kids ∧
      indexFree (spent ++ indexOf (front ++ [last])) = indexFree (spent ++ indexOf kids) := by
  obtain ⟨front, ⟨pivot, tree⟩, isConcat⟩ := List.eq_nil_or_concat kids |>.resolve_left nonempty
  rw [List.concat_eq_append] at isConcat
  subst isConcat
  have sized : pivot.length = key.length := by
    rw [keySized]
    exact (siblings.sized (pivot, tree) (by simp)).1
  have sameIds : idsOf (front ++ [(max pivot key, tree)]) = idsOf (front ++ [(pivot, tree)]) := by
    simp [idsOf]
  have sameSize : (max pivot key).length = pivot.length := by
    rcases max_choice pivot key with isPivot | isKey
    · rw [isPivot]
    · rw [isKey, sized]
  refine ⟨front, (max pivot key, tree), ?_, le_max_right .., ?_, sameIds, ?_, ?_, ?_⟩
  · rw [mayUpdateHighkey, indexOf_append, indexOf_append, ← List.append_assoc,
      ← List.append_assoc]
    exact mayUpdateHighkey_eq sized
  · intro page
    refine (siblings.raise upTo keySized).frame ?_ ?_
    · exact Nat.le_refl _
    intro other member
    apply write_pages_of_ne
    rintro rfl
    rw [sameIds] at member
    exact apart member
  · simp [leavesOf]
  · simp [entriesOf]
  · simp [indexFree, indexSpace, sameSize]

/-- The child that a search takes: the first one whose pivot reaches the key, or else
the last one.  No spent entry is taken. -/
theorem child_of_page {kids : List (Slice × Tree height)} {spent : IndexItems}
    (keyed : key ≠ []) (nonempty : kids ≠ []) (empty : ∀ item ∈ spent, item.1 = [])
    (ascending : Lib.Ascending kids) :
    ∃ before pivot tree after, kids = before ++ (pivot, tree) :: after ∧
      childFor (spent ++ indexOf kids) key = tree.id ∧
      (∀ other ∈ before, other.1 < key) ∧ (after = [] ∨ key ≤ pivot) := by
  have once := ascendingOnce_of_spent keyed empty (ascending_indexOf ascending)
  obtain ⟨before, item, after, split, offset, below, behind⟩ :=
    pageBinSearchHighkey_spec once (by simp [indexOf, nonempty])
  have isChild : childFor (spent ++ indexOf kids) key = item.2 := by
    rw [childFor, pivots_eq, offset, split, pageReadChildAtOffset]
    simp
  have isLive : ∃ front, before = spent ++ front ∧ indexOf kids = front ++ item :: after := by
    rcases List.append_eq_append_iff.mp split with
      ⟨front, isBefore, isKids⟩ | ⟨back, isSpent, isItems⟩
    · exact ⟨front, isBefore, isKids⟩
    · cases back with
      | nil => exact ⟨[], by simpa using isSpent.symm, isItems.symm⟩
      | cons other back =>
          obtain ⟨rfl, rfl⟩ := List.cons_eq_cons.mp isItems
          have isEmpty := empty item (by rw [isSpent]; simp)
          rcases behind with isNil | reaches
          · simp [indexOf, nonempty] at isNil
          · rw [isEmpty] at reaches
            exact absurd reaches (not_le.mpr (nil_lt_of_ne_nil keyed))
  obtain ⟨front, rfl, isKids⟩ := isLive
  obtain ⟨first, rest, rfl, rfl, isRest⟩ := List.map_eq_append_iff.mp isKids
  obtain ⟨⟨pivot, tree⟩, last, rfl, rfl, rfl⟩ := List.map_eq_cons_iff.mp isRest
  refine ⟨first, pivot, tree, last, rfl, isChild, ?_, ?_⟩
  · intro other member
    exact below _ (List.mem_append_right _ (List.mem_map_of_mem member))
  · exact behind.imp_left List.map_eq_nil_iff.mp

/-- The child that takes the key lies between its bounds. -/
theorem child_of_key {front : List (Slice × Tree height)} {last : Slice × Tree height}
    {spent : IndexItems} {ordered : Option Slice → Option Slice → Tree height → Prop}
    (keyed : key ≠ []) (empty : ∀ item ∈ spent, item.1 = [])
    (kidsOrdered : OrderedKids ordered low high (front ++ [last])) (above : Above low key)
    (reached : key ≤ last.1) :
    ∃ before pivot tree after, front ++ [last] = before ++ (pivot, tree) :: after ∧
      childFor (spent ++ indexOf (front ++ [last])) key = tree.id ∧
      Above (lastPivot low before) key ∧ key ≤ pivot := by
  obtain ⟨before, pivot, tree, after, split, isChild, below, behind⟩ :=
    child_of_page keyed (by simp) empty kidsOrdered.ascending
  refine ⟨before, pivot, tree, after, split, isChild, ?_, ?_⟩
  · cases isLast : before.getLast? with
    | none =>
        rw [List.getLast?_eq_none_iff.mp isLast]
        exact above
    | some other =>
        have less := below other (List.mem_of_getLast? isLast)
        intro bound isBound
        have same : other.1 = bound := by simpa [lastPivot, isLast] using isBound
        rw [← same]
        exact less
  · rcases behind with rfl | reaches
    · have same : last = (pivot, tree) := by
        have lasts := congrArg List.getLast? split
        simpa using lasts
      rw [same] at reached
      exact reached
    · exact reaches

/-- After a child has changed: its page still has the old entry for it, and `grown`
are the children as they are now. -/
structure Regrows (keySize valueSize : Nat) (key : Slice) (edit : Option Slice)
    (store later : Store)
    (low high : Option Slice) (next id : PageId) (kids grown : List (Slice × Tree height)) :
    Prop where
  changes : Changes (id :: idsOf kids) store later
  siblings : Siblings keySize valueSize later low high next grown
  apart : id ∉ idsOf grown
  used : id < later.newId
  nonempty : grown ≠ []
  fromKids : ∀ other ∈ idsOf grown, other ∈ idsOf kids ∨ store.newId ≤ other
  sameHead : (leavesOf grown).head? = (leavesOf kids).head?
  edited : Edited key edit (entriesOf kids) (entriesOf grown)

theorem regrows_of_child {id : PageId} {kids before after fresh : List (Slice × Tree height)}
    {pivot : Slice} {edit : Option Slice} {tree : Tree height} {page : Page}
    (isFresh : fresh ≠ []) (above : Above (lastPivot low before) key) (upTo : key ≤ pivot)
    (isApart : id ∉ idsOf kids) (used : id < store.newId)
    (siblings : Siblings keySize valueSize (store.write id page) low high next
      (before ++ (pivot, tree) :: after))
    (sameIds : idsOf (before ++ (pivot, tree) :: after) = idsOf kids)
    (sameLeaves : leavesOf (before ++ (pivot, tree) :: after) = leavesOf kids)
    (sameEntries : entriesOf (before ++ (pivot, tree) :: after) = entriesOf kids)
    (changes : Changes tree.ids (store.write id page) later)
    (replaced : Siblings keySize valueSize later (lastPivot low before) (some pivot)
      ((leavesOf after).headD next) fresh)
    (fromTree : ∀ other ∈ idsOf fresh, other ∈ tree.ids ∨ store.newId ≤ other)
    (sameHead : (leavesOf fresh).head? = tree.leaves.head?)
    (edited : Edited key edit tree.entries (entriesOf fresh)) :
    Regrows keySize valueSize key edit store later low high next id kids
        (before ++ (fresh ++ after)) ∧
      later.pages id = page := by
  have apart : id ∉ idsOf (before ++ (pivot, tree) :: after) := by
    rw [sameIds]
    exact isApart
  have inTree : ∀ other ∈ tree.ids, other ∈ idsOf (before ++ (pivot, tree) :: after) := by
    intro other member
    exact List.mem_flatMap.mpr ⟨(pivot, tree), by simp, member⟩
  have fromBoth : ∀ other ∈ idsOf (before ++ (fresh ++ after)),
      other ∈ idsOf (before ++ (pivot, tree) :: after) ∨ store.newId ≤ other := by
    intro other member
    simp only [idsOf, List.flatMap_append, List.mem_append] at member
    rcases member with inBefore | inFresh | inAfter
    · exact .inl (by simp only [idsOf, List.flatMap_append]; exact List.mem_append_left _ inBefore)
    · exact (fromTree other inFresh).imp_left (inTree other)
    · left
      simp only [idsOf, List.flatMap_append, List.flatMap_cons]
      exact List.mem_append_right _ (List.mem_append_right _ inAfter)
  refine ⟨⟨?_, siblings.replace changes replaced fromTree sameHead, ?_, ?_, ?_, ?_, ?_, ?_⟩, ?_⟩
  · apply (changes_write store page (.inl List.mem_cons_self)).trans changes
    intro other member
    rw [← sameIds]
    exact .inl (List.mem_cons_of_mem _ (inTree other member))
  · intro member
    rcases fromBoth id member with inKids | isNew
    · exact apart inKids
    · exact absurd used (not_lt.mpr isNew)
  · exact used.trans_le changes.grows
  · intro isNil
    exact isFresh (List.append_eq_nil_iff.mp (List.append_eq_nil_iff.mp isNil).2).1
  · rw [← sameIds]
    exact fromBoth
  · rw [← sameLeaves]
    simp only [leavesOf, List.flatMap_append, List.flatMap_cons, List.head?_append]
    rw [leavesOf] at sameHead
    rw [sameHead]
  · rw [← sameEntries]
    exact edited_siblings siblings above upTo edited
  · rw [changes.frame id used (fun inside => apart (inTree id inside)), write_pages_self]

section Regrown

variable {id : PageId} {edit : Option Slice} {kids grown : List (Slice × Tree height)}

/-- The page gets new entries. -/
theorem Regrows.write (regrows : Regrows keySize valueSize key edit store later low high next
      id kids grown) (page : Page) :
    Regrows keySize valueSize key edit store (later.write id page) low high next id kids
      grown := by
  refine { regrows with changes := ?_, siblings := ?_ }
  · exact regrows.changes.trans (changes_write later page (.inl List.mem_cons_self))
      (fun _ member => .inl member)
  · refine regrows.siblings.frame ?_ ?_
    · exact Nat.le_refl _
    · intro other member
      apply write_pages_of_ne
      rintro rfl
      exact regrows.apart member

/-- Spent entries stay spent when the children change. -/
theorem Regrows.spent {items : IndexItems} (regrows : Regrows keySize valueSize key edit store
      later low high next id kids grown) (isSpent : Spent keySize store kids items) :
    Spent keySize later grown items := by
  refine ⟨isSpent.empty, ?_, ?_, isSpent.narrow⟩
  · exact fun item member => (isSpent.used item member).trans_le regrows.changes.grows
  · intro item member inside
    rcases regrows.fromKids _ inside with inKids | isNew
    · exact isSpent.apart item member inKids
    · exact absurd (isSpent.used item member) (not_lt.mpr isNew)

theorem Spent.subset {spent some : IndexItems} {kids fewer : List (Slice × Tree height)}
    (isSpent : Spent keySize store kids spent) (subset : some ⊆ spent)
    (within : idsOf fewer ⊆ idsOf kids) : Spent keySize store fewer some := by
  refine ⟨fun item member => isSpent.empty item (subset member),
    fun item member => isSpent.used item (subset member),
    fun item member inside => isSpent.apart item (subset member) (within inside), ?_⟩
  rcases isSpent.narrow with rfl | narrow
  · exact .inl (List.subset_nil.mp subset)
  · exact .inr narrow

theorem indexes_of_follows {spent items : IndexItems} {some : List (Slice × Tree height)}
    (isSpent : Spent keySize store kids spent) (within : idsOf some ⊆ idsOf kids)
    (follows : Follows spent (indexOf some) items)
    (isIndex : (store.pages id).items = .index items) : Indexes keySize store id some := by
  obtain ⟨front, fromSpent, rfl⟩ := follows
  exact ⟨front, isSpent.subset fromSpent within, isIndex⟩

theorem takes_of_regrows (regrows : Regrows keySize valueSize key edit store later low high next
      id kids grown) (indexes : Indexes keySize later id grown) :
    @Takes (height + 1) keySize valueSize key edit store later low high next (id, kids)
      (id, grown) := by
  refine ⟨regrows.changes, subtree_node_iff.mpr ⟨indexes, regrows.nonempty, regrows.apart,
    regrows.used, regrows.siblings⟩, rfl, ?_, regrows.sameHead, regrows.edited⟩
  intro other member
  rcases List.mem_cons.mp member with rfl | inGrown
  · exact .inl List.mem_cons_self
  · exact (regrows.fromKids other inGrown).imp_left (List.mem_cons_of_mem _)

/-- The store in which an internal page has given its upper half to a new page. -/
def indexHalves (store : Store) (id : PageId) (lowItems highItems : IndexItems) : Store :=
  (store.allocated.write id { pageInit with items := .index lowItems }).write
    store.newId { pageInit with items := .index highItems }

theorem pageHighkey_follows {spent items : IndexItems} {kids : List (Slice × Tree height)}
    (nonempty : kids ≠ []) (follows : Follows spent (indexOf kids) items) :
    lastPivot none kids = some (pageHighkey (pivots items)) ∧
      ∃ last ∈ kids, pageHighkey (pivots items) = last.1 := by
  obtain ⟨front, -, rfl⟩ := follows
  obtain ⟨others, last, isConcat⟩ := List.eq_nil_or_concat kids |>.resolve_left nonempty
  rw [List.concat_eq_append] at isConcat
  subst isConcat
  have highkey : pageHighkey (pivots (front ++ indexOf (others ++ [last]))) = last.1 := by
    rw [indexOf_append, ← List.append_assoc, pivots_eq, indexOf_cons]
    exact pageHighkey_append _ (last.1, last.2.id)
  rw [lastPivot_append_singleton, highkey]
  exact ⟨rfl, last, by simp, rfl⟩

/-- A page without children has an empty high key. -/
theorem pageHighkey_spent {spent items : IndexItems} (empty : ∀ item ∈ spent, item.1 = [])
    (follows : Follows spent [] items) : pageHighkey (pivots items) = [] := by
  obtain ⟨front, within, rfl⟩ := follows
  rw [List.append_nil]
  rcases List.eq_nil_or_concat front with rfl | ⟨others, last, isConcat⟩
  · rfl
  · rw [List.concat_eq_append] at isConcat
    subst isConcat
    rw [pivots_eq, pageHighkey_append]
    exact empty last (within (by simp))

/-- One of the pages that an internal page has become. -/
theorem half_of_page {half : List (Slice × Tree height)} {spent items : IndexItems}
    {own : PageId} (nonempty : half ≠ []) (isUsed : own < store.newId)
    (apart : own ∉ idsOf half) (upTo : ∀ kid ∈ half, UpTo high kid.1)
    (siblings : Siblings keySize valueSize store low (lastPivot none half) next half)
    (follows : Follows spent (indexOf half) items) (indexes : Indexes keySize store own half) :
    @Siblings (height + 1) keySize valueSize store low high next
      [(pageHighkey (pivots items), (own, half))] := by
  obtain ⟨isLast, last, inHalf, isPivot⟩ := pageHighkey_follows nonempty follows
  rw [isLast] at siblings
  apply Siblings.single
  · exact subtree_node_iff.mpr ⟨indexes, nonempty, apart, isUsed, siblings⟩
  · rw [isPivot]
    exact siblings.ordered.above inHalf
  · rw [isPivot]
    exact upTo last inHalf
  · rw [isPivot]
    exact (siblings.sized last inHalf).1

theorem splits_of_regrows {lowKids highKids : List (Slice × Tree height)}
    {spent lowItems highItems : IndexItems} (highNonempty : highKids ≠ [])
    (narrow : lowKids = [] → ¬ FourPivots keySize) (wasUsed : id < store.newId)
    (isSpent : Spent keySize later (lowKids ++ highKids) spent)
    (lowFollows : Follows spent (indexOf lowKids) lowItems)
    (highFollows : Follows spent (indexOf highKids) highItems)
    (regrows : Regrows keySize valueSize key (some value) store later low high next id kids
      (lowKids ++ highKids)) :
    ∃ left fresh,
      [(pageHighkey (pivots lowItems), id), (pageHighkey (pivots highItems), later.newId)] =
          left ++ indexOf fresh ∧
        @Splits (height + 1) keySize valueSize key value store
          (indexHalves later id lowItems highItems) low high next (id, kids) left fresh := by
  obtain ⟨changes, siblings, apart, used, -, fromKids, sameHead, edited⟩ := regrows
  have grows : later.newId ≤ (indexHalves later id lowItems highItems).newId := Nat.le_succ _
  have atId : (indexHalves later id lowItems highItems).pages id =
      { pageInit with items := .index lowItems } := by
    rw [indexHalves, write_pages_of_ne _ _ _ used.ne, write_pages_self]
  have atNew : (indexHalves later id lowItems highItems).pages later.newId =
      { pageInit with items := .index highItems } := by
    rw [indexHalves, write_pages_self]
  have elsewhere : ∀ other, other < later.newId → other ≠ id →
      (indexHalves later id lowItems highItems).pages other = later.pages other := by
    intro other isUsed different
    rw [indexHalves, write_pages_of_ne _ _ _ isUsed.ne, write_pages_of_ne _ _ _ different,
      allocated_pages _ isUsed]
  have lowWithin : idsOf lowKids ⊆ idsOf (lowKids ++ highKids) := by
    rw [idsOf, idsOf, List.flatMap_append]
    exact List.subset_append_left _ _
  have highWithin : idsOf highKids ⊆ idsOf (lowKids ++ highKids) := by
    rw [idsOf, idsOf, List.flatMap_append]
    exact List.subset_append_right _ _
  have apartLow : id ∉ idsOf lowKids := fun inside => apart (lowWithin inside)
  have apartHigh : id ∉ idsOf highKids := fun inside => apart (highWithin inside)
  have newApart : later.newId ∉ idsOf highKids := fun inside =>
    absurd (siblings.used _ (highWithin inside)) (lt_irrefl _)
  have spentLater := isSpent.of_newId grows
  have highIndexes : Indexes keySize (indexHalves later id lowItems highItems) later.newId
      highKids := indexes_of_follows spentLater highWithin highFollows (by rw [atNew])
  have allChanges : Changes (id :: idsOf kids) store (indexHalves later id lowItems highItems) := by
    have allocates := changes.trans (changes_allocated (id :: idsOf kids) later)
      (fun _ member => .inl member)
    have lowWritten := allocates.trans (changes_write later.allocated
      { pageInit with items := .index lowItems }
      (.inl (List.mem_cons_self : id ∈ id :: idsOf kids))) (fun _ member => .inl member)
    exact lowWritten.trans (changes_write _ _ (.inl (List.mem_singleton_self later.newId)))
      (fun _ member => .inr ((List.mem_singleton.mp member).ge.trans' changes.grows))
  have highUpTo : ∀ kid ∈ highKids, UpTo high kid.1 :=
    fun kid member => siblings.ordered.upTo (List.mem_append_right _ member)
  by_cases lowNonempty : lowKids = []
  · subst lowNonempty
    have highHere := (siblings.upTo_last highNonempty).frame grows (fun other member =>
      elsewhere other (siblings.used other member) (by rintro rfl; exact apart member))
    refine ⟨[([], id)], [(pageHighkey (pivots highItems), (later.newId, highKids))], ?_,
      allChanges, ?_, ?_, ?_, ?_, ?_⟩
    · rw [pageHighkey_spent isSpent.empty lowFollows]
      rfl
    · exact half_of_page highNonempty (Nat.lt_succ_self _) newApart highUpTo highHere highFollows
        highIndexes
    · refine .emptied ?_ (narrow rfl)
      intro inside
      rcases List.mem_cons.mp inside with isNew | inHigh
      · exact absurd isNew used.ne
      · exact apartHigh inHigh
    · intro other member
      rw [idsOf, List.flatMap_cons, List.flatMap_nil, List.append_nil, ids_node] at member
      rcases List.mem_cons.mp member with rfl | inHigh
      · exact .inr changes.grows
      · exact (fromKids other inHigh).imp_left (List.mem_cons_of_mem _)
    · simpa [leavesOf] using sameHead
    · simpa [entriesOf] using edited
  · obtain ⟨lowSiblings, highSiblings, apartHalves⟩ := siblings.split lowNonempty
    have lowHere := lowSiblings.frame grows (fun other member =>
      elsewhere other (lowSiblings.used other member) (by rintro rfl; exact apartLow member))
    have highHere := (highSiblings.upTo_last highNonempty).frame grows (fun other member =>
      elsewhere other (highSiblings.used other member) (by rintro rfl; exact apartHigh member))
    have lowIndexes : Indexes keySize (indexHalves later id lowItems highItems) id lowKids :=
      indexes_of_follows spentLater lowWithin lowFollows (by rw [atId])
    have lowSingle := half_of_page lowNonempty (used.trans (Nat.lt_succ_self _)) apartLow
      (fun kid member => siblings.ordered.upTo (List.mem_append_left _ member)) lowHere
      lowFollows lowIndexes
    obtain ⟨lowLast, -, -, -⟩ := pageHighkey_follows lowNonempty lowFollows
    rw [lowLast] at highHere
    have highSingle := half_of_page highNonempty (Nat.lt_succ_self _) newApart highUpTo highHere
      highFollows highIndexes
    refine ⟨[], [(pageHighkey (pivots lowItems), (id, lowKids)),
      (pageHighkey (pivots highItems), (later.newId, highKids))], rfl, allChanges, ?_,
      .halves rfl, ?_, ?_, ?_⟩
    · apply @Siblings.append (height + 1) keySize valueSize _ low high next
        [(pageHighkey (pivots lowItems), (id, lowKids))]
        [(pageHighkey (pivots highItems), (later.newId, highKids))] high
        (by simpa [leavesOf] using lowSingle) highSingle (fun _ upTo => upTo)
      intro other inFirst inSecond
      simp only [idsOf, List.flatMap_cons, List.flatMap_nil, ids_node, List.append_nil,
        List.mem_cons] at inFirst inSecond
      rcases inFirst with rfl | inFirst
      · rcases inSecond with isNew | inSecond
        · exact absurd isNew used.ne
        · exact apartHigh inSecond
      · rcases inSecond with rfl | inSecond
        · exact absurd (lowSiblings.used _ inFirst) (lt_irrefl _)
        · exact apartHalves other inFirst inSecond
    · intro other member
      have parts := fromKids other
      simp only [idsOf, List.flatMap_append, List.flatMap_cons, List.flatMap_nil, ids_node,
        List.append_nil, List.mem_append, List.mem_cons] at member parts ⊢
      rcases member with (rfl | inLow) | rfl | inHigh
      · exact .inl (.inl rfl)
      · exact (parts (.inl inLow)).imp_left .inr
      · exact .inr changes.grows
      · exact (parts (.inr inHigh)).imp_left .inr
    · simpa [leavesOf] using sameHead
    · simpa [entriesOf] using edited

end Regrown

section Overflow

variable {id : PageId} {before after fresh : List (Slice × Tree height)} {pivot : Slice}
  {tree : Tree height} {front spent : IndexItems}

/-- A page that still has the entry of a child that has split. -/
structure Outdated (keySize : Nat) (store : Store) (id : PageId) (front : IndexItems)
    (before : List (Slice × Tree height)) (pivot : Slice) (tree : Tree height)
    (after : List (Slice × Tree height)) (spent : IndexItems)
    (fresh : List (Slice × Tree height)) : Prop where
  items : (store.pages id).items = .index (front ++ indexOf (before ++ (pivot, tree) :: after))
  single : ∀ item ∈ front ++ indexOf before, item.2 ≠ tree.id
  sized : ∀ kid ∈ before ++ (pivot, tree) :: after, kid.1.length = keySize
  replaces : Replaces keySize tree.id spent fresh
  isSpent : Spent keySize store (before ++ (fresh ++ after)) (front ++ spent)
  keyed : ∀ item ∈ indexOf (before ++ (fresh ++ after)), item.1 ≠ []
  ascending : Lib.Ascending (before ++ (fresh ++ after))
  freshSized : ∀ kid ∈ fresh, kid.1.length = keySize

theorem Outdated.offset
    (outdated : Outdated keySize later id front before pivot tree after spent fresh) :
    pageGetOffsetByChild (front ++ indexOf (before ++ (pivot, tree) :: after)) tree.id =
      some (front.length + before.length) := by
  have found := @pageGetOffsetByChild_eq (front ++ indexOf before) (indexOf after) pivot tree.id
    outdated.single
  rw [List.length_append, length_indexOf, List.append_assoc] at found
  rw [indexOf_append, indexOf_cons]
  exact found

theorem erase_child :
    (front ++ indexOf (before ++ (pivot, tree) :: after)).eraseIdx
        (front.length + before.length) = front ++ indexOf (before ++ after) := by
  have erased := @eraseIdx_append (front ++ indexOf before) (indexOf after) (pivot, tree.id)
  rw [List.length_append, length_indexOf, List.append_assoc, List.append_assoc] at erased
  rw [indexOf_append, indexOf_cons, indexOf_append]
  exact erased

/-- The new pivots find their place between the other children. -/
theorem Outdated.inserted {low high : List (Slice × Tree height)} {items : IndexItems}
    (outdated : Outdated keySize later id front before pivot tree after spent fresh)
    (part : (low ++ (fresh ++ high)).Sublist (before ++ (fresh ++ after)))
    (follows : Follows front (indexOf (low ++ high)) items) :
    UnlessFull (pageInsertIndexEntries items (spent ++ indexOf fresh))
      (Follows (front ++ spent) (indexOf (low ++ (fresh ++ high)))) := by
  have empty := outdated.isSpent.empty
  have ascending := ascending_indexOf (outdated.ascending.sublist part)
  have keyed : ∀ item ∈ indexOf (low ++ (fresh ++ high)), item.1 ≠ [] := by
    intro item member
    exact outdated.keyed item ((part.map _).subset member)
  rw [indexOf_append, indexOf_append] at ascending keyed ⊢
  rw [indexOf_append] at follows
  exact pageInsertIndexEntries_follows
    (fun item member => empty item (List.mem_append_left _ member))
    (fun item member => empty item (List.mem_append_right _ member)) keyed ascending follows

/-- The parent takes the new pivots, or has no room for one of them. -/
theorem exec_tryInsertInternal
    (outdated : Outdated keySize later id front before pivot tree after spent fresh) :
    exec (tryInsertInternal id (spent ++ indexOf fresh) tree.id) later = .error .noSpace ∨
      (exec (tryInsertInternal id (spent ++ indexOf fresh) tree.id) later = .ok (false, later) ∧
        indexFree (front ++ indexOf (before ++ (pivot, tree) :: after)) <
          keySize + 4 * itemIdSize) ∨
      ∃ items, Follows (front ++ spent) (indexOf (before ++ (fresh ++ after))) items ∧
        exec (tryInsertInternal id (spent ++ indexOf fresh) tree.id) later =
          .ok (true, later.write id { later.pages id with items := .index items }) := by
  have space : (pageReadPivotAtOffset (pivots (spent ++ indexOf fresh)) 0).length ≤ keySize := by
    have sized := outdated.freshSized
    cases outdated.replaces with
    | @halves lowKid highKid _ => exact (sized lowKid List.mem_cons_self).le
    | emptied _ _ => exact Nat.zero_le _
  rw [tryInsertInternal, exec_pin, outdated.items]
  simp only
  by_cases full : indexFree (front ++ indexOf (before ++ (pivot, tree) :: after)) <
      (pageReadPivotAtOffset (pivots (spent ++ indexOf fresh)) 0).length + 4 * itemIdSize
  · rw [if_pos full]
    exact .inr (.inl ⟨rfl, full.trans_le (Nat.add_le_add_right space _)⟩)
  · rw [if_neg full, outdated.offset]
    simp only
    rw [erase_child]
    rcases outdated.inserted (List.Sublist.refl _) ⟨front, List.Subset.refl _, rfl⟩ with
      noSpace | ⟨items, inserted, follows⟩
    · rw [noSpace, exec_orAbort_error]
      exact .inl rfl
    · rw [inserted, exec_orAbort_ok]
      exact .inr (.inr ⟨items, follows, rfl⟩)

/-- Where four pivots fit, an internal page without room for one has at least three. -/
theorem three_le_length_of_full {kids : List (Slice × Tree height)}
    (fit : FourPivots keySize) (sized : ∀ kid ∈ kids, kid.1.length = keySize)
    (full : indexFree (indexOf kids) < keySize + 4 * itemIdSize) : 3 ≤ kids.length := by
  have widths : ∀ item ∈ indexOf kids, indexSpace item.1 = keySize + 3 * itemIdSize := by
    intro item member
    obtain ⟨kid, isKid, rfl⟩ := List.mem_map.mp member
    rw [indexSpace, sized kid isKid]
  rw [indexFree, sum_map_const widths, length_indexOf] at full
  by_contra few
  have bound : kids.length * (keySize + 3 * itemIdSize) ≤ 2 * (keySize + 3 * itemIdSize) :=
    Nat.mul_le_mul_right _ (by omega)
  have room := le_freeSpace_or (kids.length * (keySize + 3 * itemIdSize))
  simp only [FourPivots, itemIdSize] at *
  omega

/-- The children on both pages after the page has split. -/
theorem exec_insertAndSplitInternalPages
    (outdated : Outdated keySize later id front before pivot tree after spent fresh)
    (full : indexFree (front ++ indexOf (before ++ (pivot, tree) :: after)) <
      keySize + 4 * itemIdSize) :
    exec (insertAndSplitInternalPages id tree.id (spent ++ indexOf fresh)) later =
        .error .noSpace ∨
      ∃ (lowKids highKids : List (Slice × Tree height)) (lowItems highItems : IndexItems),
        highKids ≠ [] ∧ (lowKids = [] → ¬ FourPivots keySize) ∧
        lowKids ++ highKids = before ++ (fresh ++ after) ∧
        Follows (front ++ spent) (indexOf lowKids) lowItems ∧
        Follows (front ++ spent) (indexOf highKids) highItems ∧
        exec (insertAndSplitInternalPages id tree.id (spent ++ indexOf fresh)) later =
          .ok ([(pageHighkey (pivots lowItems), id), (pageHighkey (pivots highItems), later.newId)],
            indexHalves later id lowItems highItems) := by
  have freshNonempty : fresh ≠ [] := by
    cases outdated.replaces with
    | halves _ => exact List.cons_ne_nil _ _
    | emptied _ _ => exact List.cons_ne_nil _ _
  have withoutFresh : (before ++ after).Sublist (before ++ (fresh ++ after)) :=
    (List.Sublist.refl before).append (List.sublist_append_right ..)
  have plain := ascending_indexOf (outdated.ascending.sublist withoutFresh)
  have keyed : ∀ item ∈ indexOf (before ++ after), item.1 ≠ [] := by
    intro item member
    exact outdated.keyed item ((withoutFresh.map _).subset member)
  have empty : ∀ item ∈ front, item.1 = [] :=
    fun item member => outdated.isSpent.empty item (List.mem_append_left _ member)
  have larger : ∀ {items live : IndexItems}, Follows front live items →
      Follows (front ++ spent) live items :=
    fun follows => follows.mono (List.subset_append_left _ _)
  have length : (front ++ indexOf (before ++ after)).length =
      front.length + (before.length + after.length) := by
    rw [List.length_append, length_indexOf, List.length_append]
  have lowMoved := pageMoveIndexEntries_low empty keyed plain
    ((front.length + (before.length + after.length)) / 2)
  have highMoved := pageMoveIndexEntries_high empty keyed plain
    ((front.length + (before.length + after.length)) / 2)
  rw [length] at highMoved
  rw [insertAndSplitInternalPages, exec_pin, outdated.items]
  simp only
  rw [outdated.offset]
  simp only
  rw [erase_child, length]
  simp only [exec_allocate]
  generalize isMiddle : (front.length + (before.length + after.length)) / 2 = middle at *
  rcases lowMoved with noSpace | ⟨lowItems, lowMoved, lowFollows⟩
  · rw [noSpace, exec_orAbort_error]
    exact .inl rfl
  rcases highMoved with noSpace | ⟨highItems, highMoved, highFollows⟩
  · rw [lowMoved, exec_orAbort_ok, noSpace, exec_orAbort_error]
    exact .inl rfl
  rw [lowMoved, exec_orAbort_ok, highMoved, exec_orAbort_ok]
  rw [indexOf, ← List.map_take, ← indexOf] at lowFollows
  rw [indexOf, ← List.map_drop, ← indexOf] at highFollows
  simp only [decide_eq_true_eq]
  by_cases belongsLow : front.length + before.length < middle
  · simp only [if_pos belongsLow]
    have lowPart : (before ++ after).take (middle - front.length) =
        before ++ after.take (middle - front.length - before.length) := by
      rw [List.take_append, List.take_of_length_le (by omega)]
    have highPart : (before ++ after).drop (middle - front.length) =
        after.drop (middle - front.length - before.length) := by
      rw [List.drop_append, List.drop_of_length_le (by omega), List.nil_append]
    have joined : before ++ (fresh ++ after.take (middle - front.length - before.length)) ++
        after.drop (middle - front.length - before.length) = before ++ (fresh ++ after) := by
      rw [List.append_assoc, List.append_assoc, List.take_append_drop]
    rw [lowPart] at lowFollows
    rw [highPart] at highFollows
    have part := List.sublist_append_left
      (before ++ (fresh ++ after.take (middle - front.length - before.length)))
      (after.drop (middle - front.length - before.length))
    rw [joined] at part
    rcases outdated.inserted part lowFollows with noSpace | ⟨items, inserted, follows⟩
    · rw [noSpace, exec_orAbort_error]
      exact .inl rfl
    · rw [inserted, exec_orAbort_ok]
      refine .inr ⟨_, _, items, highItems, ?_, ?_, joined, follows, larger highFollows, rfl⟩
      · rw [← List.length_pos_iff, List.length_drop]
        omega
      · simp [freshNonempty]
  · simp only [if_neg belongsLow]
    have notBelow := not_lt.mp belongsLow
    have lowPart : (before ++ after).take (middle - front.length) =
        before.take (middle - front.length) := List.take_append_of_le_length (by omega)
    have highPart : (before ++ after).drop (middle - front.length) =
        before.drop (middle - front.length) ++ after := List.drop_append_of_le_length (by omega)
    have joined : before.take (middle - front.length) ++
        (before.drop (middle - front.length) ++ (fresh ++ after)) =
          before ++ (fresh ++ after) := by
      rw [← List.append_assoc, List.take_append_drop]
    rw [lowPart] at lowFollows
    rw [highPart] at highFollows
    have part := List.sublist_append_right (before.take (middle - front.length))
      (before.drop (middle - front.length) ++ (fresh ++ after))
    rw [joined] at part
    rcases outdated.inserted part highFollows with noSpace | ⟨items, inserted, follows⟩
    · rw [noSpace]
      exact .inl rfl
    · rw [inserted]
      refine .inr ⟨_, _, lowItems, items, ?_, ?_, joined, larger lowFollows, follows, rfl⟩
      · simp [freshNonempty]
      · intro isNil fit
        have noFront : front = [] := by
          rcases outdated.isSpent.narrow with noSpent | narrow
          · exact (List.append_eq_nil_iff.mp noSpent).1
          · exact absurd fit narrow
        rw [noFront, List.nil_append] at full
        have three := three_le_length_of_full fit outdated.sized full
        rw [List.take_eq_nil_iff, noFront] at isNil
        rw [noFront] at isMiddle
        simp only [List.length_append, List.length_cons, List.length_nil] at three isMiddle isNil
        rcases isNil with isZero | rfl
        · omega
        · rw [noFront, List.length_nil, List.length_nil] at notBelow
          simp only [List.length_nil] at three isMiddle
          omega

end Overflow

/-! ## The way down and up again -/

theorem exec_finish_done (stack used : List PageId) (obsolete : PageId) :
    exec (finish stack used [] obsolete) store = .ok ((), store) := by
  cases stack with
  | nil =>
      rw [finish, insertUpward]
      simp
  | cons target stack =>
      rw [finish, insertUpward]
      simp

theorem finish_cons {target : PageId} {stack used : List PageId} {fresh : IndexItems}
    {obsolete : PageId} (waiting : fresh ≠ []) :
    finish (target :: stack) used fresh obsolete =
      tryInsertInternal target fresh obsolete >>= fun inserted =>
        (if inserted then pure [] else insertAndSplitInternalPages target obsolete fresh) >>=
          fun fresh => finish stack (target :: used) fresh target := by
  rw [finish, insertUpward, if_neg waiting, Lib.Program.bind_assoc]
  simp only [Lib.Program.bind_assoc]
  rfl

/-- The page above a child that has split takes its new pivots, or splits too. -/
theorem inserts_of_split {id : PageId} {kids before after fresh : List (Slice × Tree height)}
    {front spent : IndexItems} {pivot : Slice} {tree : Tree height}
    (keySized : key.length = keySize) (wasUsed : id < store.newId)
    (isIndex : (store.pages id).items = .index (front ++ indexOf kids))
    (sameFree : indexFree (front ++ indexOf (before ++ (pivot, tree) :: after)) =
      indexFree (front ++ indexOf kids))
    (outdated : Outdated keySize later id front before pivot tree after spent fresh)
    (regrows : Regrows keySize valueSize key (some value) store later low high next id kids
      (before ++ (fresh ++ after)))
    (stack used : List PageId) :
    @Inserts (height + 1) keySize valueSize key value store low high next (id, kids) stack
      (exec (finish (id :: stack) used (spent ++ indexOf fresh) tree.id) later) := by
  have waiting : spent ++ indexOf fresh ≠ [] := by
    cases outdated.replaces with
    | halves _ => exact List.cons_ne_nil _ _
    | emptied _ _ => exact List.cons_ne_nil _ _
  rw [finish_cons waiting]
  rcases exec_tryInsertInternal outdated with noSpace | ⟨isFull, full⟩ | ⟨items, follows, inserted⟩
  · rw [exec_bind_error noSpace]
    exact .noSpace
  · rw [exec_bind_ok isFull]
    simp only [Bool.false_eq_true, if_false]
    rcases exec_insertAndSplitInternalPages outdated full with noSpace |
      ⟨lowKids, highKids, lowItems, highItems, highNonempty, narrow, joined, lowFollows,
        highFollows, ran⟩
    · rw [exec_bind_error noSpace]
      exact .noSpace
    · have isSpent := outdated.isSpent
      rw [← joined] at regrows isSpent
      obtain ⟨left, grown, isFresh, splits⟩ :=
        splits_of_regrows highNonempty narrow wasUsed isSpent lowFollows highFollows regrows
      rw [exec_bind_ok ran, isFresh]
      refine @Inserts.splits (height + 1) _ _ _ _ _ _ _ _ (id, kids) _ _ (id :: used) _ _ ?_ splits
      rw [id_node, safeNode, isIndex, Page.getFreeSpace, isIndex]
      rw [sameFree] at full
      simpa [keySized] using full
  · rw [exec_bind_ok inserted]
    simp only [if_true, Lib.Program.pure_eq, Lib.Program.done_bind, exec_finish_done]
    refine .takes (takes_of_regrows (regrows.write _) ?_)
    exact indexes_of_follows (outdated.isSpent.of_newId (Nat.le_refl _)) (List.Subset.refl _)
      follows (by simp)

/-- What a page looks like to `HandleOverflow` after a child has split. -/
theorem outdated_of_splits {id : PageId} {kids before after fresh : List (Slice × Tree height)}
    {front spent : IndexItems} {pivot : Slice} {tree : Tree height} {page : Page} {middle : Store}
    (nonempty : key ≠ []) (keySized : key.length = keySize)
    (isSpent : Spent keySize store kids front)
    (items : page.items = .index (front ++ indexOf (before ++ (pivot, tree) :: after)))
    (atId : later.pages id = page)
    (siblings : Siblings keySize valueSize middle low high next (before ++ (pivot, tree) :: after))
    (sameIds : idsOf (before ++ (pivot, tree) :: after) = idsOf kids)
    (wasUsed : tree.id < later.newId) (replaces : Replaces keySize tree.id spent fresh)
    (regrows : Regrows keySize valueSize key (some value) store later low high next id kids
      (before ++ (fresh ++ after))) :
    Outdated keySize later id front before pivot tree after spent fresh := by
  have sized := fun kid member => (regrows.siblings.sized kid member).1
  have inTree : tree.id ∈ idsOf (before ++ (pivot, tree) :: after) :=
    List.mem_flatMap.mpr ⟨(pivot, tree), by simp, Tree.id_mem_ids⟩
  have distinct := siblings.distinct
  simp only [idsOf, List.flatMap_append, List.flatMap_cons] at distinct
  obtain ⟨-, distinctLater, apartBefore⟩ := List.nodup_append.mp distinct
  obtain ⟨-, -, apartAfter⟩ := List.nodup_append.mp distinctLater
  have notBefore : tree.id ∉ idsOf before := fun inBefore =>
    apartBefore tree.id inBefore tree.id (List.mem_append_left _ Tree.id_mem_ids) rfl
  have notAfter : tree.id ∉ idsOf after := fun inAfter =>
    apartAfter tree.id Tree.id_mem_ids tree.id inAfter rfl
  have stillSpent := regrows.spent isSpent
  refine ⟨by rw [atId]; exact items, ?_, fun kid member => (siblings.sized kid member).1, replaces,
    ?_, keyed_of_sized nonempty keySized sized, regrows.siblings.ordered.ascending,
    fun kid member => sized kid (by simp [member])⟩
  · intro item member same
    rcases List.mem_append.mp member with inFront | inBefore
    · apply isSpent.apart item inFront
      rw [same, ← sameIds]
      exact inTree
    · obtain ⟨kid, isKid, rfl⟩ := List.mem_map.mp inBefore
      apply notBefore
      rw [← same]
      exact List.mem_flatMap.mpr ⟨kid, isKid, Tree.id_mem_ids⟩
  · cases replaces with
    | halves _ =>
        rw [List.append_nil]
        exact stillSpent
    | @emptied kid notOwn narrow =>
        refine ⟨?_, ?_, ?_, .inr narrow⟩
        · intro item member
          rcases List.mem_append.mp member with inFront | isNew
          · exact stillSpent.empty item inFront
          · rw [List.mem_singleton.mp isNew]
        · intro item member
          rcases List.mem_append.mp member with inFront | isNew
          · exact stillSpent.used item inFront
          · rw [List.mem_singleton.mp isNew]
            exact wasUsed
        · intro item member
          rcases List.mem_append.mp member with inFront | isNew
          · exact stillSpent.apart item inFront
          · rw [List.mem_singleton.mp isNew]
            simp only [idsOf, List.flatMap_append, List.flatMap_cons, List.flatMap_nil,
              List.append_nil, List.mem_append, not_or]
            exact ⟨notBefore, notOwn, notAfter⟩

/-- What `Insert` does from a page of the path on. -/
theorem inserts (nonempty : key ≠ [])
    (keySized : key.length = keySize) (valueSized : value.length = valueSize)
    {tree : Tree height} (subtree : Subtree keySize valueSize store low high next tree)
    (above : Above low key) (upTo : UpTo high key) {fuel : Nat} (enough : height ≤ fuel)
    (stack : List PageId) :
    Inserts keySize valueSize key value store low high next tree stack
      (exec (searchLoop key value true fuel tree.id (store.pages tree.id) (tree.id :: stack) >>=
        insertOnPath key value) store) := by
  induction height generalizing store low high next fuel stack with
  | zero =>
      obtain ⟨id, items⟩ := tree
      rw [id_leaf, searchLoop_leaf subtree.kept, Lib.Program.done_bind]
      exact inserts_leaf nonempty keySized valueSized above upTo subtree stack
  | succ height ih =>
      obtain ⟨id, kids⟩ := tree
      obtain ⟨fuel, rfl⟩ : ∃ less, fuel = less + 1 := ⟨fuel - 1, by omega⟩
      obtain ⟨⟨front, isSpent, isIndex⟩, kidsNonempty, apart, wasUsed, oldSiblings⟩ :=
        subtree_node_iff.mp subtree
      obtain ⟨others, last, raised, reached, siblingsRaised, sameIds, sameLeaves, sameEntries,
        sameFree⟩ := @raise_node _ _ _ _ _ _ _ _ id kids front keySized upTo kidsNonempty apart
          oldSiblings
      obtain ⟨before, pivot, child, after, split, isChild, aboveChild, upToChild⟩ :=
        child_of_key nonempty isSpent.empty (siblingsRaised pageInit).ordered above reached
      rw [id_node, searchLoop_succ isIndex]
      simp only [if_true, raised, isChild]
      rw [split] at siblingsRaised sameIds sameLeaves sameEntries sameFree
      rw [split]
      generalize isPage : ({ store.pages id with
        items := .index (front ++ indexOf (before ++ (pivot, child) :: after)) } : Page) = page
        at *
      have items : page.items = .index (front ++ indexOf (before ++ (pivot, child) :: after)) := by
        rw [← isPage]
      have siblings := siblingsRaised page
      have upToPivot : UpTo (some pivot) key := by
        intro bound isBound
        cases isBound
        exact upToChild
      -- the child, with the stack that `SearchDown` leaves above it
      have below := fun stack => ih siblings.kid aboveChild upToPivot
        (Nat.le_of_succ_le_succ enough) stack
      have taken : ∀ {later grown}, Takes keySize valueSize key (some value) (store.write id page)
          later
          (lastPivot low before) (some pivot) ((leavesOf after).headD next) child grown →
          @Inserts (height + 1) keySize valueSize key value store low high next (id, kids) stack
            (.ok ((), later)) := by
        intro later grown takes
        have single : Siblings keySize valueSize later (lastPivot low before) (some pivot)
            ((leavesOf after).headD next) [(pivot, grown)] := by
          obtain ⟨-, abovePivot, -, -, -⟩ := orderedKids_append.mp siblings.ordered
          exact Siblings.single takes.subtree abovePivot
            (fun bound isBound => by cases isBound; rfl) (siblings.sized (pivot, child) (by simp)).1
        obtain ⟨regrows, atId⟩ := regrows_of_child (List.cons_ne_nil _ _) aboveChild upToChild
          apart wasUsed siblings sameIds sameLeaves sameEntries takes.changes single
          (by simpa [idsOf] using takes.fromTree) (by simpa [leavesOf] using takes.sameHead)
          (by simpa [entriesOf] using takes.edited)
        refine .takes (takes_of_regrows regrows ⟨front, regrows.spent isSpent, ?_⟩)
        rw [atId, items]
        simp [takes.sameId]
      simp only [Lib.Program.bind_assoc, exec_put, exec_writeLock, exec_pin]
      by_cases safe : safeNode ((store.write id page).pages child.id) key value = true
      · rw [if_pos safe]
        simp only [Lib.Program.bind_assoc, exec_unlockParents]
        have outcome := below []
        generalize exec _ _ = result at outcome ⊢
        cases outcome with
        | noSpace => exact .noSpace
        | takes takes => exact taken takes
        | splits notSafe _ => exact absurd safe (Bool.eq_false_iff.mp notSafe)
      · rw [if_neg safe]
        have outcome := below (id :: stack)
        generalize exec _ _ = result at outcome ⊢
        cases outcome with
        | noSpace => exact .noSpace
        | takes takes => exact taken takes
        | @splits later used spent fresh _ splits =>
            have isFresh : fresh ≠ [] := by
              cases splits.replaces with
              | halves _ => exact List.cons_ne_nil _ _
              | emptied _ _ => exact List.cons_ne_nil _ _
            obtain ⟨regrows, atId⟩ := regrows_of_child isFresh aboveChild upToChild apart wasUsed
              siblings sameIds sameLeaves sameEntries splits.changes splits.siblings
              splits.fromTree splits.sameHead splits.edited
            have childUsed : child.id < later.newId :=
              (siblings.kid.used _ Tree.id_mem_ids).trans_le splits.changes.grows
            exact inserts_of_split keySized wasUsed isIndex sameFree
              (outdated_of_splits nonempty keySized isSpent items atId siblings sameIds childUsed
                splits.replaces regrows) regrows stack _

end AhaTree.Btree
