import AhaTree.BtreeInsert

/-!
# The B-tree is a finite map

The invariant of the whole tree, what each call does to it, and from that what
any sequence of calls returns.  A full root moves to a new page and becomes one
of the two children of the root page, whose id never changes.
-/

namespace AhaTree.Btree

open Store

variable {height : Nat} {keySize valueSize : Nat} {key value : Slice} {store later : Store}
  {low high : Option Slice} {next : PageId}

/-! ## A new root -/

namespace Tree

/-- The same tree, with its root on another page. -/
def moved (id : PageId) : {height : Nat} → Tree height → Tree height
  | 0, tree => (id, tree.2)
  | _ + 1, tree => (id, tree.2)

/-- The pages below the root. -/
def innerIds : {height : Nat} → Tree height → List PageId
  | 0, _ => []
  | _ + 1, tree => idsOf tree.2

theorem ids_eq (tree : Tree height) : tree.ids = tree.id :: tree.innerIds := by
  cases height with
  | zero => rfl
  | succ height => rfl

theorem ids_moved (id : PageId) (tree : Tree height) :
    (tree.moved id).ids = id :: tree.innerIds := by
  cases height with
  | zero => rfl
  | succ height => rfl

@[simp] theorem id_moved (id : PageId) (tree : Tree height) : (tree.moved id).id = id := by
  cases height with
  | zero => rfl
  | succ height => rfl

@[simp] theorem entries_moved (id : PageId) (tree : Tree height) :
    (tree.moved id).entries = tree.entries := by
  cases height with
  | zero => rfl
  | succ height => rfl

end Tree

theorem subtree_moved {id : PageId} {tree : Tree height}
    (subtree : Subtree keySize valueSize store low high next tree)
    (grows : store.newId ≤ later.newId) (isUsed : id < later.newId) (fresh : id ∉ tree.innerIds)
    (root : (later.pages id).items = (store.pages tree.id).items)
    (linked : height = 0 → (later.pages id).right = next)
    (same : ∀ other ∈ tree.innerIds, (later.pages other).items = (store.pages other).items ∧
      (later.pages other).right = (store.pages other).right) :
    Subtree keySize valueSize later low high next (tree.moved id) := by
  obtain ⟨kept, ordered, sized, distinct, used, chained⟩ := subtree
  have isDistinct : (tree.moved id).ids.Nodup := by
    rw [Tree.ids_eq] at distinct
    rw [Tree.ids_moved]
    exact List.nodup_cons.mpr ⟨fresh, (List.nodup_cons.mp distinct).2⟩
  have areUsed : ∀ other ∈ (tree.moved id).ids, other < later.newId := by
    intro other member
    rw [Tree.ids_moved] at member
    rcases List.mem_cons.mp member with rfl | inner
    · exact isUsed
    · apply (used other _).trans_le grows
      rw [Tree.ids_eq]
      exact List.mem_cons_of_mem _ inner
  cases height with
  | zero =>
      obtain ⟨old, items⟩ := tree
      have isKept : (later.pages id).items = .leaf items := root.trans kept
      exact ⟨isKept, ordered, sized, isDistinct, areUsed, linked rfl, trivial⟩
  | succ height =>
      obtain ⟨old, kids⟩ := tree
      obtain ⟨⟨front, isSpent, isIndex⟩, kidsKept⟩ := kept
      refine ⟨⟨⟨front, isSpent.of_newId grows, root.trans isIndex⟩, ?_⟩, ordered, sized, isDistinct,
        areUsed, ?_⟩
      · intro kid isKid
        apply (kidsKept kid isKid).of_items grows
        intro other member
        exact (same other (List.mem_flatMap.mpr ⟨kid, isKid, member⟩)).1
      · apply chained.of_right
        intro other member
        obtain ⟨kid, isKid, inKid⟩ := List.mem_flatMap.mp member
        exact (same other (List.mem_flatMap.mpr ⟨kid, isKid, Tree.leaves_subset inKid⟩)).2

theorem Subtree.of_same {tree : Tree height}
    (subtree : Subtree keySize valueSize store low high next tree)
    (grows : store.newId ≤ later.newId)
    (same : ∀ id ∈ tree.ids, (later.pages id).items = (store.pages id).items ∧
      (later.pages id).right = (store.pages id).right) :
    Subtree keySize valueSize later low high next tree := by
  obtain ⟨kept, ordered, sized, distinct, used, chained⟩ := subtree
  refine ⟨kept.of_items grows (fun id member => (same id member).1), ordered, sized, distinct,
    fun id member => (used id member).trans_le grows, ?_⟩
  exact chained.of_right (fun id member => (same id (Tree.leaves_subset member)).2)

/-- What `HandleOverflow` does when the root has split. -/
theorem exec_splitRoot {lowPivot highPivot : Slice} {lowId highId : PageId}
    {holds : IndexItems → Prop}
    (inserted : UnlessFull
      (pageInsertIndexEntries [] [(lowPivot, store.newId), (highPivot, highId)]) holds)
    (rootUsed : rootPageId < store.newId) (highUsed : highId < store.newId) :
    exec (splitRoot [(lowPivot, lowId), (highPivot, highId)]) store = .error .noSpace ∨
      ∃ later items, exec (splitRoot [(lowPivot, lowId), (highPivot, highId)]) store =
          .ok ((), later) ∧
        later.newId = store.newId + 1 ∧ later.treeHeight = store.treeHeight + 1 ∧
        holds items ∧ (later.pages rootPageId).items = .index items ∧
        (later.pages store.newId).items = (store.pages rootPageId).items ∧
        (later.pages store.newId).right = highId ∧
        ∀ id, id ≠ rootPageId → id < store.newId →
          (later.pages id).items = (store.pages id).items ∧
            (later.pages id).right = (store.pages id).right := by
  have newNotRoot : store.newId ≠ rootPageId := rootUsed.ne'
  have movedNew : store.rootMoved.pages store.newId = store.pages rootPageId := by
    simp [rootMoved, newNotRoot]
  have movedOther : ∀ id, id ≠ rootPageId → id < store.newId →
      store.rootMoved.pages id = store.pages id := by
    intro id different isUsed
    simp [rootMoved, different, isUsed.ne]
  have pair : pageInsertIndexEntries []
      [(pageReadPivotAtOffset (pivots [(lowPivot, lowId), (highPivot, highId)]) 0, store.newId),
        (pageReadPivotAtOffset (pivots [(lowPivot, lowId), (highPivot, highId)]) 1,
          pageReadChildAtOffset [(lowPivot, lowId), (highPivot, highId)] 1)] =
      pageInsertIndexEntries [] [(lowPivot, store.newId), (highPivot, highId)] := rfl
  have isHighId : pageReadChildAtOffset [(lowPivot, lowId), (highPivot, highId)] 1 = highId := rfl
  rw [splitRoot, exec_allocateRoot]
  simp only [exec_writeLock, exec_pin, exec_put]
  rw [pair]
  rcases inserted with noSpace | ⟨items, inserted, held⟩
  · rw [noSpace, exec_orAbort_error]
    exact .inl rfl
  · rw [inserted, exec_orAbort_ok]
    simp only [exec_put, exec_writeUnlock, exec_heighten, isHighId]
    refine .inr ⟨_, items, rfl, rfl, rfl, held, ?_, ?_, ?_, ?_⟩
    · simp
    · rw [write_pages_of_ne _ _ _ newNotRoot, write_pages_of_ne _ _ _ highUsed.ne',
        write_pages_self]
      simp only [movedNew]
    · rw [write_pages_of_ne _ _ _ newNotRoot, write_pages_of_ne _ _ _ highUsed.ne',
        write_pages_self]
    · intro id different isUsed
      rw [write_pages_of_ne _ _ _ different]
      by_cases isHigh : id = highId
      · subst isHigh
        rw [write_pages_self]
        simp only
        rw [write_pages_of_ne _ _ _ isUsed.ne, movedOther _ different isUsed]
        exact ⟨rfl, rfl⟩
      · rw [write_pages_of_ne _ _ _ isHigh, write_pages_of_ne _ _ _ isUsed.ne,
          movedOther id different isUsed]
        exact ⟨rfl, rfl⟩

/-! ## The whole tree -/

/-- The store holds the tree from the root page on. -/
structure Holding (keySize valueSize : Nat) (store : Store) (tree : Tree height) : Prop where
  subtree : Subtree keySize valueSize store none none 0 tree
  root : tree.id = rootPageId
  isHeight : store.treeHeight = height + 1

theorem Holding.rootUsed {tree : Tree height} (holding : Holding keySize valueSize store tree) :
    rootPageId < store.newId := by
  rw [← holding.root]
  exact holding.subtree.used _ Tree.id_mem_ids

theorem holding_initial : @Holding 0 keySize valueSize initial (rootPageId, []) := by
  refine ⟨⟨rfl, ⟨List.Pairwise.nil, by simp⟩, ?_, by simp, ?_, rfl, trivial⟩, rfl, rfl⟩
  · intro item member
    exact absurd member List.not_mem_nil
  · intro id member
    rw [List.mem_singleton.mp member]
    exact Nat.zero_lt_one

/-- What `HandleOverflow` leaves when the root has split. -/
def Heightens (keySize valueSize : Nat) (key value : Slice) (store : Store) (tree : Tree height)
    (used : List PageId) (fresh : IndexItems) : Prop :=
  exec (finish [] used fresh rootPageId) store = .error .noSpace ∨
    ∃ last grown, exec (finish [] used fresh rootPageId) store = .ok ((), last) ∧
      @Holding (height + 1) keySize valueSize last grown ∧
      Edited key (some value) tree.entries grown.entries

theorem exec_finish_root {used : List PageId} {fresh : IndexItems} {last : Store}
    (waiting : fresh ≠ []) (ran : exec (splitRoot fresh) store = .ok ((), last)) :
    exec (finish [] used fresh rootPageId) store = .ok ((), last) := by
  have finished : finish [] used fresh rootPageId =
      (if fresh = [] then pure () else splitRoot fresh : Code Unit) >>= fun _ =>
        unlockParents [] >>= fun _ => unlockParents used := rfl
  rw [finished, if_neg waiting, exec_bind_ok ran]
  simp only [exec_unlockParents, exec_unlockParents_last]

theorem exec_finish_root_error {used : List PageId} {fresh : IndexItems} {failure : Failure}
    (waiting : fresh ≠ []) (failed : exec (splitRoot fresh) store = .error failure) :
    exec (finish [] used fresh rootPageId) store = .error failure := by
  have finished : finish [] used fresh rootPageId =
      (if fresh = [] then pure () else splitRoot fresh : Code Unit) >>= fun _ =>
        unlockParents [] >>= fun _ => unlockParents used := rfl
  rw [finished, if_neg waiting, exec_bind_error failed]

/-- A root whose children have all moved stays as a spent entry of the new root. -/
theorem heightens_emptied {tree : Tree height} {kid : Slice × Tree height} {used : List PageId}
    (holding : Holding keySize valueSize store tree)
    (splits : Splits keySize valueSize key value store later none none 0 tree [([], tree.id)]
      [kid])
    (notOwn : tree.id ∉ kid.2.ids) (narrow : ¬ FourPivots keySize) (keyed : kid.1 ≠ []) :
    Heightens keySize valueSize key value later tree used ([([], tree.id)] ++ indexOf [kid]) := by
  obtain ⟨changes, siblings, -, fromTree, sameHead, edited⟩ := splits
  have rootUsed : rootPageId < later.newId := holding.rootUsed.trans_le changes.grows
  have kidTree := @Siblings.kid height keySize valueSize later none none 0 [] [] kid.1 kid.2
    siblings
  have inserted := @pageInsertIndexEntries_follows [] [([], later.newId)] (indexOf [kid]) [] []
    [] (by simp) (by simp) (by simpa [indexOf] using keyed) (by simp [indexOf, Lib.Ascending])
    ⟨[], List.Subset.refl _, rfl⟩
  rcases exec_splitRoot inserted rootUsed (kidTree.used _ Tree.id_mem_ids) with
    noSpace | ⟨last, items, ran, newIds, heights, follows, rootItems, -, -, others⟩
  · exact .inl (exec_finish_root_error (List.cons_ne_nil _ _) noSpace)
  have isNew : later.newId < last.newId := newIds ▸ Nat.lt_succ_self _
  rw [holding.root] at notOwn
  have kidHere : Subtree keySize valueSize last none (some kid.1) 0 kid.2 := by
    apply kidTree.of_same isNew.le
    intro id member
    exact others id (fun isRoot => notOwn (isRoot ▸ member)) (kidTree.used id member)
  refine .inr ⟨last, (rootPageId, [kid]), exec_finish_root (List.cons_ne_nil _ _) ran,
    ⟨subtree_node_iff.mpr ⟨?_, List.cons_ne_nil _ _, ?_, rootUsed.trans isNew, ?_⟩, rfl, ?_⟩, ?_⟩
  · obtain ⟨front, within, rfl⟩ := follows
    refine ⟨front, Spent.subset ⟨?_, ?_, ?_, .inr narrow⟩ within (List.Subset.refl _), ?_⟩
    · simp
    · simpa using isNew
    · intro item member inside
      have isItem : item = ([], later.newId) := by simpa using member
      have inKid : later.newId ∈ kid.2.ids := by simpa [idsOf, isItem] using inside
      exact absurd (kidTree.used _ inKid) (lt_irrefl _)
    · rw [rootItems]
      rfl
  · simpa [idsOf] using notOwn
  · exact Siblings.single kidHere (by simp [Above]) (by simp [UpTo])
      (siblings.sized kid List.mem_cons_self).1
  · rw [heights, changes.height, holding.isHeight]
  · simpa [entriesOf] using edited

/-- A root that has split becomes the first child of a new root. -/
theorem heightens_halves {tree : Tree height} {lowKid highKid : Slice × Tree height}
    {used : List PageId} (holding : Holding keySize valueSize store tree)
    (splits : Splits keySize valueSize key value store later none none 0 tree []
      [lowKid, highKid])
    (sameId : lowKid.2.id = tree.id) (keyed : ∀ item ∈ indexOf [lowKid, highKid], item.1 ≠ []) :
    Heightens keySize valueSize key value later tree used
      ([] ++ indexOf [lowKid, highKid]) := by
  obtain ⟨changes, siblings, -, fromTree, sameHead, edited⟩ := splits
  have lowIsRoot : lowKid.2.id = rootPageId := sameId.trans holding.root
  have rootUsed : rootPageId < later.newId := holding.rootUsed.trans_le changes.grows
  have less : lowKid.1 < highKid.1 :=
    (List.pairwise_cons.mp siblings.ordered.ascending).1 highKid (List.mem_singleton_self _)
  have lowTree := @Siblings.kid height keySize valueSize later none none 0 [] [highKid]
    lowKid.1 lowKid.2 siblings
  have highTree := @Siblings.kid height keySize valueSize later none none 0 [lowKid] []
    highKid.1 highKid.2 siblings
  have apart : ∀ id ∈ lowKid.2.ids, id ∉ highKid.2.ids := by
    have distinct := siblings.distinct
    simp only [idsOf, List.flatMap_cons, List.flatMap_nil, List.append_nil] at distinct
    intro id inLow inHigh
    exact (List.nodup_append.mp distinct).2.2 id inLow id inHigh rfl
  have rootNotHigh : rootPageId ∉ highKid.2.ids := by
    rw [← lowIsRoot]
    exact apart _ Tree.id_mem_ids
  have rootNotInner : rootPageId ∉ lowKid.2.innerIds := by
    have distinct := lowTree.distinct
    rw [Tree.ids_eq, lowIsRoot] at distinct
    exact (List.nodup_cons.mp distinct).1
  have innerUsed : ∀ id ∈ lowKid.2.innerIds, id < later.newId := by
    intro id member
    apply lowTree.used
    rw [Tree.ids_eq]
    exact List.mem_cons_of_mem _ member
  have inserted := @pageInsertIndexEntries_follows [] []
    [(lowKid.1, later.newId), (highKid.1, highKid.2.id)] [] [] [] (by simp) (by simp)
    (by simpa [indexOf] using keyed) (by simpa [Lib.Ascending] using less)
    ⟨[], List.Subset.refl _, rfl⟩
  rcases exec_splitRoot inserted rootUsed (highTree.used _ Tree.id_mem_ids) with
    noSpace | ⟨last, items, ran, newIds, heights, follows, rootItems, newItems, newRight, others⟩
  · exact .inl (exec_finish_root_error (List.cons_ne_nil _ _) noSpace)
  obtain ⟨front, within, rfl⟩ := follows
  have isNew : later.newId < last.newId := newIds ▸ Nat.lt_succ_self _
  have grows : later.newId ≤ last.newId := isNew.le
  have lowMoved : Subtree keySize valueSize last none (some lowKid.1)
      ((leavesOf [highKid]).headD 0) (lowKid.2.moved later.newId) := by
    apply subtree_moved lowTree grows isNew
    · exact fun inside => absurd (innerUsed _ inside) (lt_irrefl _)
    · rw [newItems, lowIsRoot]
    · rintro rfl
      exact newRight
    · intro other member
      exact others other (fun isRoot => rootNotInner (isRoot ▸ member)) (innerUsed other member)
  have highHere : Subtree keySize valueSize last (some lowKid.1) (some highKid.1) 0 highKid.2 := by
    apply highTree.of_same grows
    intro id member
    exact others id (fun isRoot => rootNotHigh (isRoot ▸ member)) (highTree.used id member)
  have lowSized := (siblings.sized lowKid List.mem_cons_self).1
  have highSized := (siblings.sized highKid (by simp)).1
  have lowSingle : Siblings keySize valueSize last none none ((leavesOf [highKid]).headD 0)
      [(lowKid.1, lowKid.2.moved later.newId)] :=
    Siblings.single lowMoved (by simp [Above]) (by simp [UpTo]) lowSized
  have highSingle : Siblings keySize valueSize last (some lowKid.1) none 0 [highKid] := by
    refine Siblings.single highHere ?_ (by simp [UpTo]) highSized
    intro bound isBound
    cases isBound
    exact less
  have movedIds : ∀ id ∈ (lowKid.2.moved later.newId).ids,
      id ≠ rootPageId ∧ id ∉ highKid.2.ids := by
    intro id member
    rw [Tree.ids_moved] at member
    rcases List.mem_cons.mp member with rfl | inner
    · exact ⟨rootUsed.ne', fun inside => absurd (highTree.used _ inside) (lt_irrefl _)⟩
    · refine ⟨fun isRoot => rootNotInner (isRoot ▸ inner), apart id ?_⟩
      rw [Tree.ids_eq]
      exact List.mem_cons_of_mem _ inner
  refine .inr ⟨last, (rootPageId, [(lowKid.1, lowKid.2.moved later.newId), highKid]),
    exec_finish_root (List.cons_ne_nil _ _) ran,
    ⟨subtree_node_iff.mpr ⟨?_, by simp, ?_, rootUsed.trans_le grows, ?_⟩, rfl, ?_⟩, ?_⟩
  · refine ⟨front, Spent.subset ⟨by simp, by simp, by simp, .inl rfl⟩ within
      (List.Subset.refl _), ?_⟩
    rw [rootItems]
    simp [indexOf]
  · simp only [idsOf, List.flatMap_cons, List.flatMap_nil, List.append_nil, List.mem_append]
    rintro (inLow | inHigh)
    · exact (movedIds _ inLow).1 rfl
    · exact rootNotHigh inHigh
  · apply @Siblings.append height keySize valueSize last none none 0
      [(lowKid.1, lowKid.2.moved later.newId)] [highKid] none lowSingle highSingle
      (fun _ upTo => upTo)
    intro id inLow inHigh
    simp only [idsOf, List.flatMap_cons, List.flatMap_nil, List.append_nil] at inLow inHigh
    exact (movedIds id inLow).2 inHigh
  · rw [heights, changes.height, holding.isHeight]
  · simpa [entriesOf] using edited

theorem Holding.heightens {tree : Tree height} {spent : IndexItems}
    {fresh : List (Slice × Tree height)} {used : List PageId}
    (holding : Holding keySize valueSize store tree)
    (splits : Splits keySize valueSize key value store later none none 0 tree spent fresh)
    (keyed : ∀ item ∈ indexOf fresh, item.1 ≠ []) :
    Heightens keySize valueSize key value later tree used (spent ++ indexOf fresh) := by
  cases splits.replaces with
  | halves sameId => exact heightens_halves holding splits sameId keyed
  | emptied notOwn narrow =>
      exact heightens_emptied holding splits notOwn narrow (keyed _ List.mem_cons_self)

/-- `Insert` and `Update`. -/
theorem exec_insert {tree : Tree height} (nonempty : key ≠ [])
    (keySized : key.length = keySize) (valueSized : value.length = valueSize)
    (holding : Holding keySize valueSize store tree) :
    exec (insert store.treeHeight key value) store = .error .noSpace ∨
      ∃ last, ∃ tall, ∃ grown : Tree tall,
        exec (insert store.treeHeight key value) store = .ok (.ok, last) ∧
          Holding keySize valueSize last grown ∧
          Edited key (some value) tree.entries grown.entries := by
  have enough : height ≤ store.treeHeight := by
    rw [holding.isHeight]
    exact Nat.le_succ _
  have outcome := inserts nonempty keySized valueSized holding.subtree
    (by simp [Above]) (by simp [UpTo]) enough []
  rw [insert, exec_searchDown, ← Lib.Program.bind_assoc]
  rw [holding.root] at outcome
  generalize isRun : exec (searchLoop key value true store.treeHeight rootPageId
    (store.pages rootPageId) [rootPageId] >>= insertOnPath key value) store = result at outcome
  cases outcome with
  | noSpace =>
      rw [exec_bind_error isRun]
      exact .inl rfl
  | takes takes =>
      rw [exec_bind_ok isRun]
      refine .inr ⟨_, height, _, rfl, ⟨takes.subtree, takes.sameId.trans holding.root, ?_⟩,
        takes.edited⟩
      rw [takes.changes.height, holding.isHeight]
  | splits _ splits =>
      rw [holding.root] at isRun
      have keyed := keyed_of_sized nonempty keySized
        (fun kid member => (splits.siblings.sized kid member).1)
      rcases holding.heightens splits keyed with noSpace | ⟨last, grown, ran, holds, edited⟩
      · rw [noSpace] at isRun
        rw [exec_bind_error isRun]
        exact .inl rfl
      · rw [ran] at isRun
        rw [exec_bind_ok isRun]
        exact .inr ⟨last, _, grown, rfl, holds, edited⟩

/-! ## Searching -/

/-- The leaves with their entries, from left to right. -/
def Tree.leafPages : {height : Nat} → Tree height → List (PageId × LeafItems)
  | 0, tree => [(tree.1, tree.2)]
  | _ + 1, tree => tree.2.flatMap (fun kid => kid.2.leafPages)

namespace Tree

theorem entries_eq (tree : Tree height) :
    tree.entries = tree.leafPages.flatMap (fun page => page.2) := by
  induction height with
  | zero => simp [entries, leafPages]
  | succ height ih =>
      simp only [entries, leafPages, List.flatMap_assoc]
      exact List.flatMap_congr (fun kid _ => ih kid.2)

theorem leaves_eq (tree : Tree height) : tree.leaves = tree.leafPages.map Prod.fst := by
  induction height with
  | zero => simp [leaves, leafPages]
  | succ height ih =>
      simp only [leaves, leafPages, List.map_flatMap]
      exact List.flatMap_congr (fun kid _ => ih kid.2)

theorem Kept.leafPages {tree : Tree height} (kept : tree.Kept keySize store)
    {page : PageId × LeafItems} (member : page ∈ tree.leafPages) :
    (store.pages page.1).items = .leaf page.2 := by
  induction height with
  | zero =>
      rw [List.mem_singleton.mp member]
      exact kept
  | succ height ih =>
      obtain ⟨kid, isKid, inKid⟩ := List.mem_flatMap.mp member
      exact ih (kept.2 kid isKid) inKid

theorem Ordered.leafPages {tree : Tree height} (ordered : tree.Ordered low high)
    {page : PageId × LeafItems} (member : page ∈ tree.leafPages) : Lib.Ascending page.2 := by
  induction height generalizing low high with
  | zero =>
      rw [List.mem_singleton.mp member]
      exact ordered.1
  | succ height ih =>
      obtain ⟨kid, isKid, inKid⟩ := List.mem_flatMap.mp member
      obtain ⟨before, after, split⟩ := List.append_of_mem isKid
      have kids := ordered.2
      rw [split, orderedKids_append] at kids
      exact ih kids.2.2.2.1 inKid

end Tree

theorem entriesOf_eq (kids : List (Slice × Tree height)) :
    entriesOf kids = (kids.flatMap (fun kid => kid.2.leafPages)).flatMap (fun page => page.2) := by
  have whole := @Tree.entries_eq (height + 1) (0, kids)
  exact whole

/-- The child for a key: the first one whose pivot reaches it, or else the last one. -/
def reaching (items : IndexItems) (key : Slice) : PageId :=
  match items.find? (fun item => decide (key ≤ item.1)) with
  | some item => item.2
  | none => (items.getLast?.map Prod.snd).getD 0

/-- From a page, the search for the key comes to this leaf. -/
inductive Descends (pages : PageId → Page) (key : Slice) : Nat → PageId → PageId → Prop where
  | leaf {id : PageId} {items : LeafItems} (isLeaf : (pages id).items = .leaf items) :
      Descends pages key 0 id id
  | index {id child leaf : PageId} {items : IndexItems} {height : Nat}
      (isIndex : (pages id).items = .index items) (isChild : childFor items key = child)
      (reaches : reaching items key = child) (below : Descends pages key height child leaf) :
      Descends pages key (height + 1) id leaf

theorem reaching_split {before after : IndexItems} {item : Slice × PageId}
    (below : ∀ other ∈ before, other.1 < key) (behind : after = [] ∨ key ≤ item.1) :
    reaching (before ++ item :: after) key = item.2 := by
  have passes : before.find? (fun item => decide (key ≤ item.1)) = none := by
    rw [List.find?_eq_none]
    intro other member
    simpa using below other member
  rw [reaching, List.find?_append, passes, Option.none_or, List.find?_cons]
  by_cases reached : key ≤ item.1
  · simp [reached]
  · have isLast := behind.resolve_right reached
    simp [reached, isLast]

/-- Where the search for a key ends: the keys of the leaves before are smaller, and
those of the leaves behind are greater. -/
theorem descent {tree : Tree height}
    (subtree : Subtree keySize valueSize store low high next tree) (keyed : key ≠ []) :
    ∃ before id items after, tree.leafPages = before ++ (id, items) :: after ∧
      (∀ item ∈ before.flatMap (fun page => page.2), item.1 < key) ∧
      (∀ item ∈ after.flatMap (fun page => page.2), key < item.1) ∧
      Descends store.pages key height tree.id id := by
  induction height generalizing low high next with
  | zero =>
      obtain ⟨id, items⟩ := tree
      exact ⟨[], id, items, [], rfl, by simp, by simp, .leaf subtree.kept⟩
  | succ height ih =>
      obtain ⟨id, kids⟩ := tree
      obtain ⟨⟨front, isSpent, isIndex⟩, nonempty, -, -, siblings⟩ := subtree_node_iff.mp subtree
      obtain ⟨before, pivot, child, after, rfl, isChild, below, behind⟩ :=
        child_of_page keyed nonempty isSpent.empty siblings.ordered.ascending
      have reaches : reaching (front ++ indexOf (before ++ (pivot, child) :: after)) key =
          child.id := by
        rw [indexOf_append, indexOf_cons, ← List.append_assoc]
        apply reaching_split
        · intro other member
          rcases List.mem_append.mp member with inFront | inBefore
          · rw [isSpent.empty other inFront]
            exact nil_lt_of_ne_nil keyed
          · obtain ⟨kid, isKid, rfl⟩ := List.mem_map.mp inBefore
            exact below kid isKid
        · exact behind.imp_left (fun isNil => by rw [isNil]; rfl)
      obtain ⟨orderedBefore, -, -, own, orderedAfter⟩ := orderedKids_append.mp siblings.ordered
      have smaller : ∀ item ∈ entriesOf before, item.1 < key := by
        intro item member
        obtain ⟨kid, isKid, inKid⟩ := List.mem_flatMap.mp member
        obtain ⟨front, back, split⟩ := List.append_of_mem isKid
        rw [split, orderedKids_append] at orderedBefore
        have inside := (orderedBefore.2.2.2.1.inside inKid).2
        exact (inside kid.1 rfl).trans_lt (below kid isKid)
      have greater : ∀ item ∈ entriesOf after, key < item.1 := by
        intro item member
        have isNonempty : after ≠ [] := by
          obtain ⟨kid, isKid, -⟩ := List.mem_flatMap.mp member
          exact List.ne_nil_of_mem isKid
        have bounded : @Tree.Ordered (height + 1) (some pivot) high (0, after) :=
          ⟨isNonempty, orderedAfter⟩
        exact (behind.resolve_left isNonempty).trans_lt ((bounded.inside member).1 pivot rfl)
      rw [entriesOf_eq] at smaller greater
      obtain ⟨front, leaf, items, back, split, frontBelow, backAbove, descends⟩ := ih siblings.kid
      refine ⟨before.flatMap (fun kid => kid.2.leafPages) ++ front, leaf, items,
        back ++ after.flatMap (fun kid => kid.2.leafPages), ?_, ?_, ?_,
        .index isIndex isChild reaches descends⟩
      · simp only [Tree.leafPages, List.flatMap_append, List.flatMap_cons, split]
        simp
      · intro item member
        rw [List.flatMap_append] at member
        exact (List.mem_append.mp member).elim (smaller item) (frontBelow item)
      · intro item member
        rw [List.flatMap_append] at member
        exact (List.mem_append.mp member).elim (backAbove item) (greater item)

/-- `SearchDown` when it does not insert. -/
theorem Descends.exec_searchLoop {id leaf : PageId}
    (descends : Descends store.pages key height id leaf) (value : Slice) {fuel : Nat}
    (enough : height ≤ fuel) (stack : List PageId) :
    ∃ path, ∀ {α : Type} (rest : List PageId → Code α),
      exec (searchLoop key value false fuel id (store.pages id) (id :: stack) >>= rest) store =
        exec (rest (leaf :: path)) store := by
  induction descends generalizing fuel stack with
  | leaf isLeaf =>
      refine ⟨stack, ?_⟩
      intro α rest
      rw [searchLoop_leaf isLeaf, Lib.Program.done_bind]
  | @index id child leaf items height isIndex isChild _ _ ih =>
      obtain ⟨fuel, rfl⟩ : ∃ less, fuel = less + 1 := ⟨fuel - 1, by omega⟩
      have remains : height ≤ fuel := Nat.le_of_succ_le_succ enough
      by_cases safe : safeNode (store.pages child) key value = true
      · obtain ⟨path, ran⟩ := ih remains []
        refine ⟨path, ?_⟩
        intro α rest
        rw [searchLoop_succ isIndex]
        simp only [Bool.false_eq_true, if_false, isChild, Lib.Program.bind_assoc,
          Lib.Program.pure_eq, Lib.Program.done_bind, exec_writeLock, exec_pin]
        rw [if_pos safe]
        simp only [Lib.Program.bind_assoc, exec_unlockParents]
        exact ran rest
      · obtain ⟨path, ran⟩ := ih remains (id :: stack)
        refine ⟨path, ?_⟩
        intro α rest
        rw [searchLoop_succ isIndex]
        simp only [Bool.false_eq_true, if_false, isChild, Lib.Program.bind_assoc,
          Lib.Program.pure_eq, Lib.Program.done_bind, exec_writeLock, exec_pin]
        rw [if_neg safe]
        exact ran rest

/-- A key of the tree is on the leaf where its search ends. -/
theorem mem_entries_iff {tree : Tree height} {before after : List (PageId × LeafItems)}
    {id : PageId} {items : LeafItems} (split : tree.leafPages = before ++ (id, items) :: after)
    (below : ∀ item ∈ before.flatMap (fun page => page.2), item.1 < key)
    (behind : ∀ item ∈ after.flatMap (fun page => page.2), key < item.1)
    {item : Slice × Slice} (isKey : item.1 = key) : item ∈ tree.entries ↔ item ∈ items := by
  rw [Tree.entries_eq, split, List.flatMap_append, List.flatMap_cons]
  simp only [List.mem_append]
  constructor
  · rintro (inBefore | inItems | inAfter)
    · exact absurd isKey (below item inBefore).ne
    · exact inItems
    · exact absurd isKey (behind item inAfter).ne'
  · exact fun inItems => .inr (.inl inItems)

/-- What `Query` returns for the entries of a tree. -/
def Finds (entries : LeafItems) (key : Slice) : Answer → Prop
  | .found value => (key, value) ∈ entries
  | .notFound => ∀ item ∈ entries, item.1 ≠ key
  | .ok => False

theorem Holding.enough {tree : Tree height} (holding : Holding keySize valueSize store tree) :
    height ≤ store.treeHeight := by
  rw [holding.isHeight]
  exact Nat.le_succ _

theorem Tree.Sized.entries {tree : Tree height} (sized : tree.Sized keySize valueSize)
    {item : Slice × Slice} (member : item ∈ tree.entries) :
    item.1.length = keySize ∧ item.2.length = valueSize := by
  induction height with
  | zero => exact sized item member
  | succ height ih =>
      obtain ⟨kid, isKid, inKid⟩ := List.mem_flatMap.mp member
      exact ih (sized kid isKid).2 inKid

theorem exec_query {tree : Tree height} (nonempty : key ≠ [])
    (holding : Holding keySize valueSize store tree) :
    (exec (query store.treeHeight key) store = .error .zeroBytes ∧ valueSize = 0) ∨
      ∃ answer, exec (query store.treeHeight key) store = .ok (answer, store) ∧
        Finds tree.entries key answer := by
  obtain ⟨before, id, items, after, split, below, behind, descends⟩ :=
    descent holding.subtree nonempty
  obtain ⟨path, ran⟩ := descends.exec_searchLoop [] holding.enough []
  have isPage : (id, items) ∈ tree.leafPages := by
    rw [split]
    simp
  have isLeaf := holding.subtree.kept.leafPages isPage
  have ascending := holding.subtree.ordered.leafPages isPage
  have iff := fun item isKey => @mem_entries_iff _ key tree before after id items split below
    behind item isKey
  rw [query, exec_searchDown]
  rw [holding.root] at ran
  rw [ran]
  simp only [queryLeaf, exec_pin, isLeaf]
  by_cases present : ∃ item ∈ items, item.1 = key
  · obtain ⟨⟨_, value⟩, member, rfl⟩ := present
    have inTree := (iff _ rfl).mpr member
    have size : value.length = valueSize := (holding.subtree.sized.entries inTree).2
    rw [getValueWithKey_of_mem ascending member]
    by_cases valued : 0 < value.length
    · rw [if_pos valued, exec_orAbort_ok, if_neg valued.ne']
      exact .inr ⟨.found value, rfl, inTree⟩
    · rw [if_neg valued, exec_orAbort_error]
      exact .inl ⟨rfl, by omega⟩
  · have absent : ∀ item ∈ items, item.1 ≠ key :=
      fun item member isKey => present ⟨item, member, isKey⟩
    rw [getValueWithKey_of_absent nonempty absent, exec_orAbort_ok]
    refine .inr ⟨.notFound, rfl, ?_⟩
    intro item member isKey
    exact absent item ((iff item isKey).mp member) isKey

/-! ## Deleting -/

theorem flatMap_split {α β : Type} {kids : List α} {pages : α → List β} {before after : List β}
    {page : β} (split : kids.flatMap pages = before ++ page :: after) :
    ∃ front kid back own rest, kids = front ++ kid :: back ∧ pages kid = own ++ page :: rest ∧
      before = front.flatMap pages ++ own ∧ after = rest ++ back.flatMap pages := by
  induction kids generalizing before with
  | nil => simp at split
  | cons kid kids ih =>
      rw [List.flatMap_cons, List.append_eq_append_iff] at split
      rcases split with ⟨own, isBefore, later⟩ | ⟨rest, isPages, later⟩
      · obtain ⟨front, inner, back, first, last, rfl, isInner, rfl, isAfter⟩ := ih later
        refine ⟨kid :: front, inner, back, first, last, rfl, isInner, ?_, isAfter⟩
        rw [isBefore, List.flatMap_cons, List.append_assoc]
      · cases rest with
        | nil =>
            obtain ⟨front, inner, back, first, last, rfl, isInner, isEmpty, isAfter⟩ :=
              @ih [] later.symm
            refine ⟨kid :: front, inner, back, first, last, rfl, isInner, ?_, isAfter⟩
            rw [List.flatMap_cons, List.append_assoc, ← isEmpty, isPages, List.append_nil,
              List.append_nil]
        | cons head rest =>
            obtain ⟨rfl, rfl⟩ := List.cons_eq_cons.mp later
            exact ⟨[], kid, kids, before, rest, rfl, isPages, rfl, rfl⟩

/-- A leaf loses entries. -/
theorem shrink_leaf {tree : Tree height}
    (subtree : Subtree keySize valueSize store low high next tree)
    {before after : List (PageId × LeafItems)} {id : PageId} {items fewer : LeafItems}
    (split : tree.leafPages = before ++ (id, items) :: after) (sublist : fewer.Sublist items) :
    ∃ grown : Tree height,
      Subtree keySize valueSize
        (store.write id { store.pages id with items := .leaf fewer }) low high next grown ∧
      grown.id = tree.id ∧ grown.ids = tree.ids ∧ grown.leaves = tree.leaves ∧ id ∈ tree.ids ∧
      grown.leafPages = before ++ (id, fewer) :: after := by
  induction height generalizing low high next before after with
  | zero =>
      obtain ⟨own, all⟩ := tree
      have single : [(own, all)] = before ++ (id, items) :: after := split
      rw [List.singleton_eq_append_iff] at single
      rcases single with ⟨rfl, single⟩ | ⟨-, isNil⟩
      · obtain ⟨same, rfl⟩ := List.cons_eq_cons.mp single
        obtain ⟨rfl, rfl⟩ := Prod.ext_iff.mp same
        obtain ⟨kept, ordered, sized, distinct, used, chained⟩ := subtree
        refine ⟨(id, fewer), ⟨?_, ⟨ordered.1.sublist sublist, ?_⟩, ?_, distinct, used, ?_⟩,
          rfl, rfl, rfl, List.mem_singleton_self _, rfl⟩
        · simp [Tree.Kept]
        · exact fun item member => ordered.2 item (sublist.subset member)
        · exact fun item member => sized item (sublist.subset member)
        · refine ⟨?_, trivial⟩
          simpa using chained.1
      · cases isNil
  | succ height ih =>
      obtain ⟨own, kids⟩ := tree
      obtain ⟨⟨past, isSpent, isIndex⟩, nonempty, apart, used, siblings⟩ :=
        subtree_node_iff.mp subtree
      obtain ⟨front, ⟨pivot, child⟩, back, first, last, rfl, isChild, rfl, rfl⟩ :=
        flatMap_split split
      obtain ⟨grown, shrunk, sameId, sameIds, sameLeaves, inside, pages⟩ := ih siblings.kid isChild
      have inKids : id ∈ idsOf (front ++ (pivot, child) :: back) :=
        List.mem_flatMap.mpr ⟨(pivot, child), by simp, inside⟩
      have notOwn : own ≠ id := by
        rintro rfl
        exact apart inKids
      obtain ⟨-, abovePivot, -, -, -⟩ := orderedKids_append.mp siblings.ordered
      have single := @Siblings.single height keySize valueSize _ _ (some pivot) _ pivot grown
        shrunk abovePivot (fun bound isBound => by cases isBound; rfl)
        (siblings.sized (pivot, child) (by simp)).1
      have replaced := siblings.replace (changes_write store _ (.inl inside)) single
        (by intro other member; exact .inl (by simpa [idsOf, sameIds] using member))
        (by simp [leavesOf, sameLeaves])
      have idsSame : idsOf (front ++ ([(pivot, grown)] ++ back)) =
          idsOf (front ++ (pivot, child) :: back) := by
        simp [idsOf, sameIds]
      refine ⟨(own, front ++ ([(pivot, grown)] ++ back)),
        subtree_node_iff.mpr ⟨?_, by simp, by rw [idsSame]; exact apart, used, replaced⟩, rfl, ?_,
        ?_, List.mem_cons_of_mem _ inKids, ?_⟩
      · have still := (isSpent.of_newId (Nat.le_refl _) : Spent keySize (store.write id
          { store.pages id with items := .leaf fewer }) (front ++ (pivot, child) :: back) past)
        refine ⟨past, still.subset (List.Subset.refl _) (by rw [idsSame]; exact List.Subset.refl _),
          ?_⟩
        rw [write_pages_of_ne _ _ _ notOwn, isIndex]
        simp [indexOf, sameId]
      · rw [ids_node, ids_node, idsSame]
      · simp [leavesOf, sameLeaves]
      · simp [Tree.leafPages, pages]

theorem exec_delete {tree : Tree height} (nonempty : key ≠ [])
    (holding : Holding keySize valueSize store tree) :
    ∃ answer last, ∃ grown : Tree height,
      exec (delete store.treeHeight key) store = .ok (answer, last) ∧
        Holding keySize valueSize last grown ∧ Edited key none tree.entries grown.entries ∧
        (answer = .ok ∧ (∃ item ∈ tree.entries, item.1 = key) ∨
          answer = .notFound ∧ ∀ item ∈ tree.entries, item.1 ≠ key) := by
  obtain ⟨before, id, items, after, split, below, behind, descends⟩ :=
    descent holding.subtree nonempty
  obtain ⟨path, ran⟩ := descends.exec_searchLoop [] holding.enough []
  have isPage : (id, items) ∈ tree.leafPages := by
    rw [split]
    simp
  have isLeaf := holding.subtree.kept.leafPages isPage
  have ascending := holding.subtree.ordered.leafPages isPage
  have iff := fun item isKey => @mem_entries_iff _ key tree before after id items split below
    behind item isKey
  rw [delete, exec_searchDown]
  rw [holding.root] at ran
  rw [ran]
  simp only [deleteEntry, exec_pin, isLeaf]
  by_cases present : ∃ item ∈ items, item.1 = key
  · obtain ⟨⟨_, value⟩, member, rfl⟩ := present
    rename_i found
    have inTree := (iff (found, value) rfl).mpr member
    obtain ⟨front, back, rfl⟩ := List.append_of_mem member
    rw [pageRemoveEntry_of_mem ascending]
    have sublist : (front ++ back).Sublist (front ++ (found, value) :: back) :=
      (List.Sublist.refl front).append (List.sublist_cons_self ..)
    obtain ⟨grown, shrunk, sameId, -, -, -, pages⟩ :=
      shrink_leaf holding.subtree split sublist
    refine ⟨.ok, _, grown, rfl, ⟨shrunk, sameId.trans holding.root, holding.isHeight⟩, ?_,
      .inl ⟨rfl, (found, value), inTree, rfl⟩⟩
    obtain ⟨-, later, less⟩ := Lib.ascending_append.mp ascending
    have more := (List.pairwise_cons.mp later).1
    intro item
    rw [Tree.entries_eq, Tree.entries_eq, pages, split]
    simp only [List.flatMap_append, List.flatMap_cons, List.mem_append, List.mem_cons]
    have first := below item
    have second := behind item
    have third := less item
    have fourth := more item
    constructor
    · rintro (inBefore | (inFront | inBack) | inAfter)
      · exact .inr ⟨.inl inBefore, (first inBefore).ne⟩
      · exact .inr ⟨.inr (.inl (.inl inFront)), (third inFront _ List.mem_cons_self).ne⟩
      · exact .inr ⟨.inr (.inl (.inr (.inr inBack))), (fourth inBack).ne'⟩
      · exact .inr ⟨.inr (.inr inAfter), (second inAfter).ne'⟩
    · rintro (⟨_, isNone, -⟩ | ⟨inBefore | (inFront | rfl | inBack) | inAfter, different⟩)
      · cases isNone
      · exact .inl inBefore
      · exact .inr (.inl (.inl inFront))
      · exact absurd rfl different
      · exact .inr (.inl (.inr inBack))
      · exact .inr (.inr inAfter)
  · have absent : ∀ item ∈ items, item.1 ≠ key :=
      fun item member isKey => present ⟨item, member, isKey⟩
    have nowhere : ∀ item ∈ tree.entries, item.1 ≠ key :=
      fun item member isKey => absent item ((iff item isKey).mp member) isKey
    rw [pageRemoveEntry_of_absent nonempty absent]
    refine ⟨.notFound, store, tree, rfl, holding, ?_, .inr ⟨rfl, nowhere⟩⟩
    intro item
    simp only [Option.not_mem_none, false_and, exists_false, false_or]
    exact ⟨fun member => ⟨member, nowhere item member⟩, fun member => member.1⟩

/-! ## Sequences of calls -/

/-- At least four leaf entries and four index entries fit in a page. -/
structure FourFit (keySize valueSize : Nat) : Prop where
  leaf : 4 * (keySize + valueSize + 3 * itemIdSize) ≤ usableSpace
  index : 4 * (keySize + 3 * itemIdSize) ≤ usableSpace

/-- A finite map from keys to values. -/
abbrev Mapping := Slice → Option Slice

/-- What a call returns and leaves of a map. -/
def Call.onMap : Call → Mapping → Answer × Mapping
  | .insert key value, mapping => (.ok, Function.update mapping key (some value))
  | .update key value, mapping => (.ok, Function.update mapping key (some value))
  | .query key, mapping =>
      ((mapping key).elim .notFound .found, mapping)
  | .delete key, mapping =>
      (if (mapping key).isSome then .ok else .notFound, Function.update mapping key none)

def runOnMap : List Call → Mapping → List Answer × Mapping
  | [], mapping => ([], mapping)
  | call :: calls, mapping =>
      let (answer, after) := call.onMap mapping
      let (answers, last) := runOnMap calls after
      (answer :: answers, last)

/-- The call has a key and a value of the given sizes. -/
def Call.Sized (keySize valueSize : Nat) : Call → Prop
  | .insert key value => key.length = keySize ∧ value.length = valueSize
  | .update key value => key.length = keySize ∧ value.length = valueSize
  | .query key => key.length = keySize
  | .delete key => key.length = keySize

instance (keySize valueSize : Nat) (call : Call) : Decidable (call.Sized keySize valueSize) := by
  cases call with
  | insert key value => exact inferInstanceAs (Decidable (_ ∧ _))
  | update key value => exact inferInstanceAs (Decidable (_ ∧ _))
  | query key => exact inferInstanceAs (Decidable (_ = _))
  | delete key => exact inferInstanceAs (Decidable (_ = _))

/-- In every internal page the pivots are strictly increasing, and each is an upper
bound of the keys below it and a strict lower bound of the keys of the next child. -/
def Tree.PivotsBound : {height : Nat} → Tree height → Prop
  | 0, _ => True
  | height + 1, (_, kids) =>
      Lib.Ascending kids ∧
        (∀ (before : List (Slice × Tree height)) (kid : Slice × Tree height)
            (after : List (Slice × Tree height)), kids = before ++ kid :: after →
          (∀ item ∈ kid.2.entries, item.1 ≤ kid.1) ∧
            ∀ other : Slice × Tree height, after.head? = some other →
              ∀ item ∈ other.2.entries, kid.1 < item.1) ∧
        ∀ kid : Slice × Tree height, kid ∈ kids → kid.2.PivotsBound

/-- The first leaf below a page: the first child, again and again. -/
def leftmostLeaf (pages : PageId → Page) : Nat → PageId → PageId
  | 0, id => id
  | depth + 1, id =>
      match (pages id).items with
      | .leaf _ => id
      | .index items => leftmostLeaf pages depth (pageReadChildAtOffset items 0)

/-- The pages from one on that `right_` leads to. -/
def rightward (pages : PageId → Page) : Nat → PageId → List PageId
  | 0, _ => []
  | steps + 1, id =>
      if (pages id).right = 0 then [id] else id :: rightward pages steps (pages id).right

/-- The shape of the tree that the pages from the root page on hold: all leaves have
the depth `height`. -/
structure WellShaped (store : Store) (tree : Tree height) : Prop where
  root : tree.id = rootPageId
  stored : tree.Stored store.pages
  pivots : tree.PivotsBound
  inOrder : Lib.Ascending tree.entries
  linked : ∀ steps, tree.leaves.length ≤ steps →
    rightward store.pages steps (leftmostLeaf store.pages store.treeHeight rootPageId) =
      tree.leaves

/-- Unless a page has run out of space, the calls return what they return on a map,
and leave a tree in shape with the entries of that map. -/
structure RefinesMap (calls : List Call) : Prop where
  aborts : ∀ failure, run calls initial = .error failure → failure = .noSpace
  returns : ∀ answers store, run calls initial = .ok (answers, store) →
    answers = (runOnMap calls (fun _ => none)).1 ∧
      ∃ height, ∃ tree : Tree height, WellShaped store tree ∧
        ∀ key value, (key, value) ∈ tree.entries ↔
          (runOnMap calls (fun _ => none)).2 key = some value

/-! ## The shape follows from the invariant -/

theorem Tree.Ordered.ascending_entries {tree : Tree height} (ordered : tree.Ordered low high) :
    Lib.Ascending tree.entries := by
  induction height generalizing low high with
  | zero => exact ordered.1
  | succ height ih =>
      obtain ⟨id, kids⟩ := tree
      have kidsOrdered := ordered.2
      have general : ∀ kids : List (Slice × Tree height), ∀ low,
          OrderedKids (fun low high kid => kid.Ordered low high) low high kids →
            Lib.Ascending (entriesOf kids) := by
        intro kids
        induction kids with
        | nil => exact fun _ _ => List.Pairwise.nil
        | cons kid kids kidsIh =>
            intro low kidsOrdered
            obtain ⟨-, -, own, rest⟩ := kidsOrdered
            rw [entriesOf, List.flatMap_cons, Lib.ascending_append]
            refine ⟨ih own, kidsIh _ rest, ?_⟩
            intro left inOwn right inRest
            have nonempty : kids ≠ [] := by
              obtain ⟨other, isKid, -⟩ := List.mem_flatMap.mp inRest
              exact List.ne_nil_of_mem isKid
            have bounded : @Tree.Ordered (height + 1) (some kid.1) high (0, kids) :=
              ⟨nonempty, rest⟩
            exact ((own.inside inOwn).2 kid.1 rfl).trans_lt ((bounded.inside inRest).1 kid.1 rfl)
      exact general kids low kidsOrdered

theorem Tree.Ordered.pivotsBound {tree : Tree height} (ordered : tree.Ordered low high) :
    tree.PivotsBound := by
  induction height generalizing low high with
  | zero => trivial
  | succ height ih =>
      obtain ⟨id, kids⟩ := tree
      obtain ⟨-, kidsOrdered⟩ := ordered
      refine ⟨kidsOrdered.ascending, ?_, ?_⟩
      · intro before kid after split
        rw [show kids = before ++ kid :: after from split, orderedKids_append] at kidsOrdered
        obtain ⟨-, -, -, own, rest⟩ := kidsOrdered
        refine ⟨fun item member => (own.inside member).2 kid.1 rfl, ?_⟩
        intro other isFirst item member
        cases after with
        | nil => cases isFirst
        | cons first after =>
            cases isFirst
            exact (rest.2.2.1.inside member).1 kid.1 rfl
      · intro kid isKid
        obtain ⟨before, after, split⟩ := List.append_of_mem isKid
        rw [show kids = before ++ kid :: after from split, orderedKids_append] at kidsOrdered
        exact ih kidsOrdered.2.2.2.1

theorem rightward_of_chained {pages : PageId → Page} {id : PageId} {leaves : List PageId}
    (chained : Chained pages 0 (id :: leaves)) (positive : ∀ leaf ∈ leaves, leaf ≠ 0)
    {steps : Nat} (enough : (id :: leaves).length ≤ steps) :
    rightward pages steps id = id :: leaves := by
  induction leaves generalizing id steps with
  | nil =>
      obtain ⟨steps, rfl⟩ : ∃ less, steps = less + 1 := ⟨steps - 1, by simp at enough; omega⟩
      have last : (pages id).right = 0 := chained.1
      rw [rightward, if_pos last]
  | cons leaf leaves ih =>
      obtain ⟨steps, rfl⟩ : ∃ less, steps = less + 1 := ⟨steps - 1, by simp at enough; omega⟩
      have next : (pages id).right = leaf := chained.1
      rw [rightward, next, if_neg (positive leaf List.mem_cons_self),
        ih chained.2 (fun later member => positive later (List.mem_cons_of_mem _ member))
          (by simp at enough ⊢; omega)]

theorem leftmostLeaf_eq {tree : Tree height} {pages : PageId → Page} (stored : tree.Stored pages)
    (ordered : tree.Ordered low high) {depth : Nat} (enough : height ≤ depth) :
    tree.leaves.head? = some (leftmostLeaf pages depth tree.id) := by
  induction height generalizing low high depth with
  | zero =>
      obtain ⟨id, items⟩ := tree
      have isLeaf : (pages id).items = .leaf items := stored
      cases depth with
      | zero => rfl
      | succ depth => rw [id_leaf, leftmostLeaf, isLeaf, leaves_leaf, List.head?_cons]
  | succ height ih =>
      obtain ⟨id, kids⟩ := tree
      obtain ⟨depth, rfl⟩ : ∃ less, depth = less + 1 := ⟨depth - 1, by omega⟩
      obtain ⟨isIndex, kidsStored⟩ := stored
      obtain ⟨nonempty, kidsOrdered⟩ := ordered
      obtain ⟨kid, rest, rfl⟩ := List.exists_cons_of_ne_nil nonempty
      have first := ih (kidsStored kid List.mem_cons_self) kidsOrdered.2.2.1
        (Nat.le_of_succ_le_succ enough)
      rw [id_node, leftmostLeaf, isIndex, leaves_node, leavesOf, List.flatMap_cons,
        List.head?_append, first]
      rfl

/-- A leaf with another one to its left is not the root page. -/
theorem Holding.ne_root {tree : Tree height} (holding : Holding keySize valueSize store tree)
    {before after : List PageId} {first : PageId}
    (split : tree.leaves = before ++ first :: after) : ∀ leaf ∈ after, leaf ≠ rootPageId := by
  intro leaf member isRoot
  have distinct := holding.subtree.distinct
  rw [Tree.ids_eq, holding.root] at distinct
  cases height with
  | zero =>
      obtain ⟨id, items⟩ := tree
      have lengths := congrArg List.length split
      simp only [leaves_leaf, List.length_append, List.length_cons, List.length_nil] at lengths
      have isNil : after = [] := List.length_eq_zero_iff.mp (by omega)
      rw [isNil] at member
      exact List.not_mem_nil member
  | succ height =>
      obtain ⟨id, kids⟩ := tree
      have inLeaves : leaf ∈ leavesOf kids := by
        rw [← leaves_node id kids, split]
        exact List.mem_append_right _ (List.mem_cons_of_mem _ member)
      obtain ⟨kid, isKid, inKid⟩ := List.mem_flatMap.mp inLeaves
      apply (List.nodup_cons.mp distinct).1
      rw [show rootPageId = leaf from isRoot.symm]
      exact List.mem_flatMap.mpr ⟨kid, isKid, Tree.leaves_subset inKid⟩

theorem Holding.wellShaped {tree : Tree height} (fit : FourPivots keySize)
    (holding : Holding keySize valueSize store tree) : WellShaped store tree := by
  have ordered := holding.subtree.ordered
  have stored := holding.subtree.kept.stored fit
  refine ⟨holding.root, stored, ordered.pivotsBound, ordered.ascending_entries, ?_⟩
  intro steps enough
  have first := leftmostLeaf_eq stored ordered holding.enough
  rw [holding.root] at first
  obtain ⟨rest, isCons⟩ := List.head?_eq_some_iff.mp first
  rw [isCons] at enough ⊢
  have chained := holding.subtree.chained
  rw [isCons] at chained
  exact rightward_of_chained chained (@Holding.ne_root _ _ _ _ _ holding [] _ _ isCons) enough

/-! ## The run -/

/-- The entries are those of the map. -/
def Agrees (entries : LeafItems) (mapping : Mapping) : Prop :=
  ∀ key value, (key, value) ∈ entries ↔ mapping key = some value

theorem Agrees.edited {entries after : LeafItems} {mapping : Mapping} {edit : Option Slice}
    (agrees : Agrees entries mapping) (edited : Edited key edit entries after) :
    Agrees after (Function.update mapping key edit) := by
  intro other value
  rw [edited (other, value)]
  by_cases isKey : other = key
  · subst isKey
    simp [Option.mem_def]
  · rw [Function.update_of_ne isKey, ← agrees other value]
    simp [isKey]

theorem Agrees.isSome_iff {entries : LeafItems} {mapping : Mapping}
    (agrees : Agrees entries mapping) :
    (mapping key).isSome = true ↔ ∃ item ∈ entries, item.1 = key := by
  rw [Option.isSome_iff_exists]
  constructor
  · rintro ⟨value, isValue⟩
    exact ⟨(key, value), (agrees key value).mpr isValue, rfl⟩
  · rintro ⟨⟨_, value⟩, member, rfl⟩
    exact ⟨value, (agrees _ value).mp member⟩

theorem Agrees.answer {entries : LeafItems} {mapping : Mapping} {answer : Answer}
    (agrees : Agrees entries mapping) (finds : Finds entries key answer) :
    answer = (mapping key).elim .notFound .found := by
  cases answer with
  | ok => exact finds.elim
  | found value =>
      rw [(agrees key value).mp finds]
      rfl
  | notFound =>
      cases isValue : mapping key with
      | none => rfl
      | some value => exact absurd rfl (finds _ ((agrees key value).mpr isValue))

/-- What one call does to a tree that holds a map.  Besides the space, only an empty
value ends a call. -/
theorem call_refines {tree : Tree height} {mapping : Mapping} {call : Call} (keyed : 0 < keySize)
    (sized : call.Sized keySize valueSize)
    (holding : Holding keySize valueSize store tree) (agrees : Agrees tree.entries mapping) :
    (∃ failure, store.call call = .error failure ∧ (0 < valueSize → failure = .noSpace)) ∨
      ∃ answer last, ∃ tall, ∃ grown : Tree tall, store.call call = .ok (answer, last) ∧
        Holding keySize valueSize last grown ∧ Agrees grown.entries (call.onMap mapping).2 ∧
        answer = (call.onMap mapping).1 := by
  have nonempty : ∀ key : Slice, key.length = keySize → key ≠ [] := by
    rintro _ isSize rfl
    exact absurd isSize keyed.ne
  cases call with
  | insert key value =>
      rcases exec_insert (nonempty key sized.1) sized.1 sized.2 holding with
        noSpace | ⟨last, tall, grown, ran, stays, edited⟩
      · exact .inl ⟨.noSpace, noSpace, fun _ => rfl⟩
      · exact .inr ⟨.ok, last, tall, grown, ran, stays, agrees.edited edited, rfl⟩
  | update key value =>
      rcases exec_insert (nonempty key sized.1) sized.1 sized.2 holding with
        noSpace | ⟨last, tall, grown, ran, stays, edited⟩
      · exact .inl ⟨.noSpace, noSpace, fun _ => rfl⟩
      · exact .inr ⟨.ok, last, tall, grown, ran, stays, agrees.edited edited, rfl⟩
  | query key =>
      rcases exec_query (nonempty key sized) holding with ⟨aborts, isEmpty⟩ | ⟨answer, ran, finds⟩
      · exact .inl ⟨.zeroBytes, aborts, fun valued => absurd isEmpty valued.ne'⟩
      · exact .inr ⟨answer, store, height, tree, ran, holding, agrees, agrees.answer finds⟩
  | delete key =>
      obtain ⟨answer, last, grown, ran, stays, edited, isAnswer⟩ :=
        exec_delete (nonempty key sized) holding
      refine .inr ⟨answer, last, height, grown, ran, stays, agrees.edited edited, ?_⟩
      rw [Call.onMap]
      rcases isAnswer with ⟨rfl, present⟩ | ⟨rfl, absent⟩
      · rw [if_pos (agrees.isSome_iff.mpr present)]
      · have isNone : ¬ (mapping key).isSome = true := by
          rw [agrees.isSome_iff]
          rintro ⟨item, member, isKey⟩
          exact absent item member isKey
        rw [if_neg isNone]

/-- What a sequence of calls does to a tree that holds a map. -/
theorem run_refines {tree : Tree height} {mapping : Mapping} {calls : List Call}
    (keyed : 0 < keySize) (sized : ∀ call ∈ calls, call.Sized keySize valueSize)
    (holding : Holding keySize valueSize store tree) (agrees : Agrees tree.entries mapping) :
    (∃ failure, run calls store = .error failure ∧ (0 < valueSize → failure = .noSpace)) ∨
      ∃ answers last, ∃ tall, ∃ grown : Tree tall, run calls store = .ok (answers, last) ∧
        Holding keySize valueSize last grown ∧
        Agrees grown.entries (runOnMap calls mapping).2 ∧
        answers = (runOnMap calls mapping).1 := by
  induction calls generalizing height store tree mapping with
  | nil => exact .inr ⟨[], store, height, tree, rfl, holding, agrees, rfl⟩
  | cons call calls ih =>
      rw [run]
      rcases call_refines keyed (sized call List.mem_cons_self) holding agrees with
        ⟨failure, failed, isSpace⟩ | ⟨answer, middle, wide, changed, ran, stays, held, isAnswer⟩
      · rw [failed]
        exact .inl ⟨failure, rfl, isSpace⟩
      · rw [ran]
        have later : ∀ call ∈ calls, call.Sized keySize valueSize :=
          fun call member => sized call (List.mem_cons_of_mem _ member)
        rcases ih later stays held with
          ⟨failure, failed, isSpace⟩ |
            ⟨answers, last, tall, grown, rest, final, matching, areAnswers⟩
        · simp only [failed]
          exact .inl ⟨failure, rfl, isSpace⟩
        · simp only [rest]
          refine .inr ⟨_, last, tall, grown, rfl, final, matching, ?_⟩
          rw [isAnswer, areAnswers]
          rfl

theorem agrees_initial : Agrees (@Tree.entries 0 (rootPageId, [])) (fun _ => none) := by
  intro key value
  simp

/-- The B-tree refines a finite map over keys of one length, at least one byte long. -/
theorem btree_refines_map (keySize valueSize : Nat) (calls : List Call)
    (keyed : 0 < keySize) (valued : 0 < valueSize) (fit : FourFit keySize valueSize)
    (sized : ∀ call ∈ calls, call.Sized keySize valueSize) : RefinesMap calls := by
  rcases run_refines keyed sized holding_initial agrees_initial with
    ⟨failure, failed, isSpace⟩ | ⟨answers, last, tall, grown, ran, holding, agrees, areAnswers⟩
  · refine ⟨fun other failedToo => ?_, fun answers store returned => ?_⟩
    · rw [Except.error.inj (failedToo.symm.trans failed)]
      exact isSpace valued
    · rw [failed] at returned
      cases returned
  · refine ⟨fun failure failed => ?_, fun answers store returned => ?_⟩
    · rw [ran] at failed
      cases failed
    · rw [ran] at returned
      cases returned
      exact ⟨areAnswers, tall, grown, holding.wellShaped fit.index, agrees⟩

/-- Five values of which a page takes four. -/
def splitCalls : List Call :=
  [.insert [1] (List.replicate 1990 1), .insert [2] (List.replicate 1990 2),
    .insert [3] (List.replicate 1990 3), .insert [4] (List.replicate 1990 4),
    .insert [5] (List.replicate 1990 5), .delete [2], .update [4] (List.replicate 1990 6),
    .query [2], .query [4]]

/-- The root splits at the fifth insert, and the calls return what they return on a map. -/
theorem btree_refines_map_split :
    RefinesMap splitCalls ∧
      (runOnMap splitCalls (fun _ => none)).1 =
        [.ok, .ok, .ok, .ok, .ok, .ok, .ok, .notFound, .found (List.replicate 1990 6)] ∧
      (run splitCalls initial).map (fun result => result.2.treeHeight) = .ok 2 :=
  ⟨btree_refines_map 1 1990 splitCalls (by decide) (by decide) ⟨by decide, by decide⟩
      (by simp [splitCalls, Call.Sized, -List.reduceReplicate]), by rfl, by decide +kernel⟩

/-- With keys of no bytes an insert is lost: the page search takes the empty key for
the pivot past its last entry.  The query then finds an entry without a value. -/
theorem empty_key_is_lost :
    ¬ ∀ (keySize valueSize : Nat) (calls : List Call), 0 < valueSize →
      FourFit keySize valueSize → (∀ call ∈ calls, call.Sized keySize valueSize) →
        RefinesMap calls := by
  intro refines
  have wrong := refines 0 1 [.insert [] [1], .query []] (by decide) ⟨by decide, by decide⟩
    (by decide)
  have ran : (run [.insert [] [1], .query []] initial).map Prod.fst = .error .zeroBytes := by
    decide +kernel
  cases isRun : run [.insert [] [1], .query []] initial with
  | error failure =>
      rw [isRun] at ran
      have failed := (wrong.aborts failure isRun).symm.trans (Except.error.inj ran)
      cases failed
  | ok result =>
      rw [isRun] at ran
      cases ran

end AhaTree.Btree
