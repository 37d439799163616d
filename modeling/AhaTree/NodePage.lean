import AhaTree.BtreePage

/-!
# Pages with version locks

The pages of `node_page.h`.  An internal page has a first child and then pivots,
each with the child to its right; a pivot is the largest key to its left.  A new
value of another size takes new space and leaves the old space behind, so a page
counts its free space instead of deriving it from its entries.

`garbage` is the outcome where the source goes on with bytes that no entry owns,
`noSpace` where it ends with `std::abort`.
-/

namespace AhaTree.Olc

open Btree (leafSpace indexSpace usableSpace)

inductive Content where
  | leaf (items : LeafItems)
  | inner (first : PageId) (items : IndexItems)
  deriving DecidableEq, Repr

/-- `free` is what lies between `free_start_` and `free_end_`. -/
structure Node where
  content : Content
  free : Nat
  left : PageId
  right : PageId
  deriving DecidableEq, Repr

/-- `PageInit`. -/
def pageInit : Node where
  content := .inner 0 []
  free := usableSpace
  left := 0
  right := 0

inductive Failure where
  | noSpace
  | garbage
  | zeroBytes
  | loops
  deriving DecidableEq, Repr

namespace Node

def isLeaf (node : Node) : Bool :=
  match node.content with
  | .leaf _ => true
  | .inner _ _ => false

def keys (node : Node) : List Slice :=
  match node.content with
  | .leaf items => leafKeys items
  | .inner _ items => pivots items

/-- `item_num_`: an internal page counts its pivots. -/
def itemNum (node : Node) : Nat := node.keys.length

end Node

/-! ## Reading -/

/-- `PageReadKeyAtOffset`: an empty slice past the last entry. -/
def pageReadKeyAtOffset (node : Node) (offset : Nat) : Slice :=
  pageReadPivotAtOffset node.keys offset

/-- `_lower_bound`.  The loop runs once even when there is no entry. -/
def lowerBound (keys : List Slice) (key : Slice) : Nat :=
  if keys.length = 0 then
    if (Slice.compare key []).isGT then 1 else 0
  else
    match Lib.bisect
        (fun mid => Slice.compare key (pageReadPivotAtOffset keys mid))
        keys.length 0 keys.length with
    | .hit mid => mid
    | .gap lower => lower

/-- `-1` means the first child. -/
def pageLowerBound (node : Node) (key : Slice) : Int :=
  if 0 < lowerBound node.keys key then (lowerBound node.keys key : Int) - 1 else -1

def pageReadChildAt (node : Node) (offset : Int) : PageId :=
  match node.content with
  | .leaf _ => 0
  | .inner first items => if offset < 0 then first else (items.map Prod.snd)[offset.toNat]?.getD 0

def pageReadValAt (node : Node) (offset : Nat) : Slice :=
  match node.content with
  | .leaf items => (items.map Prod.snd)[offset]?.getD []
  | .inner _ _ => []

def innerPageIsFull (node : Node) (key : Slice) : Bool :=
  decide (node.free < indexSpace key)

def leafPageIsFull (node : Node) (key value : Slice) : Bool :=
  decide (node.free < leafSpace key value)

/-! ## Inserting -/

/-- A leaf is given by its entries and its free space.  A value of the same size is
written over the old one; otherwise the slot moves on to a new entry. -/
def pageInsertKvpair (leaf : LeafItems × Nat) (key value : Slice) :
    Except Failure (LeafItems × Nat) :=
  let (items, free) := leaf
  if free < leafSpace key value then .error .noSpace
  else
    let offset := if 0 < items.length then lowerBound (leafKeys items) key else 0
    match items[offset]? with
    | some item =>
        if (Slice.compare item.1 key).isEq then
          if value.length = item.2.length then .ok (items.set offset (key, value), free)
          else .ok (items.set offset (key, value), free - leafSpace key value)
        else .ok (items.insertIdx offset (key, value), free - leafSpace key value)
    | none =>
        if key = [] then .error .garbage
        else .ok (items.insertIdx offset (key, value), free - leafSpace key value)

def pageInsertPivotPair (inner : IndexItems × Nat) (key : Slice) (child : PageId) :
    Except Failure (IndexItems × Nat) :=
  let (items, free) := inner
  if free < indexSpace key then .error .noSpace
  else if items = [] then .error .garbage
  else .ok (items.insertIdx (lowerBound (pivots items) key) (key, child), free - indexSpace key)

/-- The first child and the first pivot of an empty page. -/
def pageInsertFirstPivotPair (key : Slice) (left right : PageId) :
    Except Failure (Content × Nat) :=
  if usableSpace < itemIdSize + indexSpace key then .error .garbage
  else .ok (.inner left [(key, right)], usableSpace - itemIdSize - indexSpace key)

/-! ## Splitting -/

def getLeafPageSplitSep (items : LeafItems) : Slice :=
  if items.length / 2 = 0 then []
  else pageReadPivotAtOffset (leafKeys items) (items.length / 2 - 1)

/-- The entries one by one into an empty leaf. -/
def fillLeaf (items : LeafItems) : Except Failure (LeafItems × Nat) :=
  items.foldlM (fun leaf item => pageInsertKvpair leaf item.1 item.2) ([], usableSpace)

/-- `LeafPageSplit`: what the page keeps, and what the new page gets. -/
def leafPageSplit (items : LeafItems) :
    Except Failure ((LeafItems × Nat) × (LeafItems × Nat)) := do
  let right ← fillLeaf (items.drop (items.length / 2))
  let left ← fillLeaf (items.take (items.length / 2))
  pure (left, right)

def getInnerPageSplitSep (items : IndexItems) : Slice :=
  pageReadPivotAtOffset (pivots items) (items.length / 2 - 1)

/-- The pivots one by one into an empty page behind a first child. -/
def fillInner (first : PageId) : IndexItems → Except Failure (Content × Nat)
  | [] => .ok (.inner first [], usableSpace)
  | item :: items => do
      let (_, free) ← pageInsertFirstPivotPair item.1 first item.2
      let (items, free) ← items.foldlM
        (fun inner item => pageInsertPivotPair inner item.1 item.2) ([item], free)
      pure (.inner first items, free)

/-- `InnerPageSplit`: the middle pivot goes up, and its child is the first one of the
new page. -/
def innerPageSplit (first : PageId) (items : IndexItems) :
    Except Failure ((Content × Nat) × (Content × Nat)) :=
  if items.length < 2 then .error .garbage
  else do
    let middle := items.length / 2 - 1
    let right ← fillInner ((items.map Prod.snd)[middle]?.getD 0) (items.drop (middle + 1))
    let left ← fillInner first (items.take middle)
    pure (left, right)

end AhaTree.Olc
