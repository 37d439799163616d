import AhaTree.VisibleMap
import AhaTree.PageIterator
import AhaTree.Lib.Cut
import Mathlib.Data.List.ReduceOption

/-!
# Sorted scans

`SortedTreeIterator` walks over the merge of all components of the tree and
shows, for each user key, the newest version that the scan may see, unless that
version is a deletion.  When all components are pages it skips this work.

The iterator over the pages looks for its start on the first page only, and it
stops on later pages without entries, where it has no key.  The scan shows the
visible map unless one of the two matters.
-/

namespace AhaTree

/-! ## The components -/

/-- An entry as it lies on a leaf page. -/
def Entry.item (entry : Entry) : Slice × Slice :=
  (entry.key.encode, entry.value)

/-- What an iterator stands on: an entry, or nothing on a page without entries, where
the key is empty. -/
abbrev Spot := Option Entry

/-- The spots of a page, or of what is left of it. -/
def spots (entries : List Entry) : List Spot :=
  if entries.isEmpty then [none] else entries.map some

/-- What `NewIterator` collects: memtables and LSMTs seek by internal key, the
chained pages are read by a `PageIterator`. -/
inductive Component where
  | sorted (entries : List Entry)
  | pages (pages : List (List Entry))
  deriving DecidableEq, Repr

/-- A `PageIterator` over the entries of pages. -/
structure PagesIterator where
  pages : List (List Entry)
  iterator : PageIterator
  same : iterator.pages = pages.map (List.map Entry.item)

namespace PagesIterator

def page (child : PagesIterator) : List Entry :=
  child.pages[child.iterator.vecIndex]?.getD []

/-- The entry whose key and value are read. -/
def spot (child : PagesIterator) : Spot :=
  child.page[child.iterator.off]?

def next (child : PagesIterator) : PagesIterator where
  pages := child.pages
  iterator := child.iterator.next
  same := by
    rw [PageIterator.next_pages]
    exact child.same

/-- A new iterator after `Seek`. -/
def seek (pages : List (List Entry)) (key : Slice) : PagesIterator where
  pages := pages
  iterator := PageIterator.seek ⟨pages.map (List.map Entry.item), 0, 0, false⟩ key
  same := PageIterator.seek_pages _ key

/-- What an iterator over the pages will still stand on. -/
def spotsFrom (pages : List (List Entry)) (iterator : PageIterator) : List Spot :=
  if iterator.valid then
    spots ((pages[iterator.vecIndex]?.getD []).drop iterator.off) ++
      (pages.drop (iterator.vecIndex + 1)).flatMap spots
  else []

def stream (child : PagesIterator) : List Spot :=
  spotsFrom child.pages child.iterator

end PagesIterator

/-- A child of the merging iterator: what is left of a memtable or an LSMT, or the
iterator over the pages. -/
inductive Child where
  | list (entries : List Entry)
  | pages (child : PagesIterator)

namespace Child

/-- What the child stands on, if it is valid. -/
def spot : Child → Option Spot
  | .list entries => entries.head?.map some
  | .pages child => if child.iterator.valid then some child.spot else none

def next : Child → Child
  | .list entries => .list entries.tail
  | .pages child => .pages child.next

def stream : Child → List Spot
  | .list entries => entries.map some
  | .pages child => child.stream

end Child

namespace Component

def entries : Component → List Entry
  | .sorted entries => entries
  | .pages chain => chain.flatten

def isPages : Component → Bool
  | .sorted _ => false
  | .pages _ => true

/-- The child after `Seek`. -/
def seek (target : InternalKey) : Component → Child
  | .sorted entries => .list (entries.dropWhile (fun entry => (entry.key.compare target).isLT))
  | .pages chain => .pages (PagesIterator.seek chain target.encode)

end Component

/-! ## The merging iterator -/

/-- What ends the process. -/
inductive ScanHalt where
  /-- The assertion of `ExtractUserKey` that a key has a trailer. -/
  | noTrailer
  /-- `assert(Valid())`. -/
  | notValid
  deriving DecidableEq, Repr

/-- Whether `InternalKeyComparator::Compare` is negative. -/
def Spot.less : Spot → Spot → Except ScanHalt Bool
  | some left, some right => .ok (left.before right)
  | _, _ => .error .noTrailer

/-- The loop of `FindSmallest` over what the children stand on. -/
def findSmallest : Nat → Option (Nat × Spot) → List (Option Spot) →
    Except ScanHalt (Option (Nat × Spot))
  | _, smallest, [] => .ok smallest
  | place, smallest, none :: heads => findSmallest (place + 1) smallest heads
  | place, none, some spot :: heads => findSmallest (place + 1) (some (place, spot)) heads
  | place, some smallest, some spot :: heads =>
      match Spot.less spot smallest.2 with
      | .error halt => .error halt
      | .ok true => findSmallest (place + 1) (some (place, spot)) heads
      | .ok false => findSmallest (place + 1) (some smallest) heads

/-- The children, and the place of `current_` with what it stands on.  An only child is
used without a merging iterator around it; it is never compared, either way. -/
structure MergingIterator where
  children : List Child
  current : Option (Nat × Spot)

namespace MergingIterator

/-- The iterator after `FindSmallest`. -/
def positioned (children : List Child) : Except ScanHalt MergingIterator :=
  (findSmallest 0 none (children.map Child.spot)).map fun current => ⟨children, current⟩

def seek (components : List Component) (target : InternalKey) :
    Except ScanHalt MergingIterator :=
  positioned (components.map (Component.seek target))

def next (iterator : MergingIterator) : Except ScanHalt MergingIterator :=
  match iterator.current with
  | none => .error .notValid
  | some (place, _) => positioned (iterator.children.modify place Child.next)

end MergingIterator

/-! ## The tree iterator -/

/-- The fields of a `SortedTreeIterator`. -/
structure SortedTreeIterator where
  inner : MergingIterator
  savedKey : Slice
  valid : Bool
  allPage : Bool

namespace SortedTreeIterator

/-- `inner_iter_->Next()`. -/
def innerNext (iterator : SortedTreeIterator) : Except ScanHalt SortedTreeIterator :=
  iterator.inner.next.map fun inner => { iterator with inner := inner }

/-- The loop of `FindNextUserEntry`; `skip` always points to `saved_key_`.  Every
round moves the merging iterator on. -/
def findNextUserEntry (seqNo : Nat) :
    Nat → Bool → SortedTreeIterator → Except ScanHalt SortedTreeIterator
  | 0, _, iterator => .ok { iterator with savedKey := [], valid := false }
  | fuel + 1, skipping, iterator =>
      match iterator.inner.current with
      | none => .ok { iterator with savedKey := [], valid := false }
      -- `ParseKey` fails on an empty key
      | some (_, none) => iterator.innerNext.bind (findNextUserEntry seqNo fuel skipping)
      | some (_, some entry) =>
          if entry.sequence ≤ seqNo then
            match entry.key.type with
            | .kTypeDeletion =>
                { iterator with savedKey := entry.userKey }.innerNext.bind
                  (findNextUserEntry seqNo fuel true)
            | .kTypeValue =>
                if skipping &&
                    (Slice.compare entry.userKey iterator.savedKey).isLE then
                  iterator.innerNext.bind (findNextUserEntry seqNo fuel skipping)
                else .ok { iterator with savedKey := [], valid := true }
          else iterator.innerNext.bind (findNextUserEntry seqNo fuel skipping)

/-- As many rounds as the children have spots left. -/
def rounds (iterator : SortedTreeIterator) : Nat :=
  (iterator.inner.children.flatMap Child.stream).length

/-- The iterator that `SeekBothEnds` positions and hands to
`FindNextUserEntry`, on the components that `NewIterator` has chosen for the
range; beyond that choice the upper end is not used. -/
def sought (components : List Component) (seqNo : Nat) (low : Slice) :
    Except ScanHalt SortedTreeIterator :=
  (MergingIterator.seek components ⟨low, seqNo, kValueTypeForSeek⟩).map fun inner =>
    { inner := inner
      savedKey := InternalKey.encode ⟨low, seqNo, kValueTypeForSeek⟩
      valid := true
      allPage := components.all Component.isPages }

def seekBothEnds (components : List Component) (seqNo : Nat) (low : Slice) :
    Except ScanHalt SortedTreeIterator :=
  (sought components seqNo low).bind fun iterator =>
    match iterator.inner.current with
    | none => .ok { iterator with valid := false }
    | some _ => findNextUserEntry seqNo iterator.rounds false iterator

/-- `Next` when there may be several versions of a key. -/
def nextUserEntry (seqNo : Nat) (iterator : SortedTreeIterator) :
    Except ScanHalt SortedTreeIterator :=
  match iterator.inner.current with
  | none => .error .notValid
  | some (_, none) => .error .noTrailer
  | some (_, some entry) =>
      { iterator with savedKey := entry.userKey }.innerNext.bind fun moved =>
        match moved.inner.current with
        | none => .ok { moved with valid := false, savedKey := [] }
        | some _ => findNextUserEntry seqNo moved.rounds true moved

/-- `Next` when all components are pages. -/
def nextOnPages (iterator : SortedTreeIterator) : Except ScanHalt SortedTreeIterator :=
  iterator.innerNext.map fun moved =>
    match moved.inner.current with
    | none => { moved with valid := false }
    | some _ => moved

def next (seqNo : Nat) (iterator : SortedTreeIterator) : Except ScanHalt SortedTreeIterator :=
  if !iterator.valid then .error .notValid
  else if iterator.allPage then iterator.nextOnPages
  else iterator.nextUserEntry seqNo

/-- `key` and `value`. -/
def entry (iterator : SortedTreeIterator) : Except ScanHalt (Slice × Slice) :=
  match iterator.valid, iterator.inner.current with
  | true, some (_, some entry) => .ok (entry.userKey, entry.value)
  | true, some (_, none) => .error .noTrailer
  | _, _ => .error .notValid

/-- Moving on until invalid shows exactly these keys and values. -/
def Yields (move : SortedTreeIterator → Except ScanHalt SortedTreeIterator) :
    List (Slice × Slice) → Except ScanHalt SortedTreeIterator → Prop
  | [], result => ∃ iterator, result = .ok iterator ∧ iterator.valid = false
  | shown :: rest, result => ∃ iterator, result = .ok iterator ∧
      iterator.entry = .ok shown ∧ Yields move rest (move iterator)

end SortedTreeIterator

/-- The components of a scan: each is sorted by internal key, and a user key
and a sequence number together name one version.  Pages are there only if one has been
met. -/
structure Streams where
  components : List Component
  sorted : ∀ component ∈ components, component.entries.Pairwise
    (fun front behind => behind.before front = false)
  named : ∀ left ∈ components.flatMap Component.entries,
    ∀ right ∈ components.flatMap Component.entries,
      left.userKey = right.userKey → left.sequence = right.sequence → left = right
  added : ∀ pages, Component.pages pages ∈ components → pages ≠ []

namespace Streams

variable (streams : Streams)

def entries : List Entry :=
  streams.components.flatMap Component.entries

/-- A run of the scan shows exactly these keys and values, with the careful `Next`, and
with the one that looks at `all_page_` if it may. -/
structure Shows (seqNo : Nat) (low : Slice) (result : List (Slice × Slice)) : Prop where
  careful : SortedTreeIterator.Yields (SortedTreeIterator.nextUserEntry seqNo) result
    (SortedTreeIterator.seekBothEnds streams.components seqNo low)
  short : (streams.components.all Component.isPages = true →
      StoredOnceAndLive streams.entries seqNo) →
    SortedTreeIterator.Yields (SortedTreeIterator.next seqNo) result
      (SortedTreeIterator.seekBothEnds streams.components seqNo low)

/-- Scans show exactly the visible map from the lower end on, in ascending order of user
keys. -/
def ScansVisible (seqNo : Nat) (low : Slice) : Prop :=
  ∃ result, streams.Shows seqNo low result ∧
    result.Pairwise (fun front behind => front.1 < behind.1) ∧
    ∀ userKey value, (userKey, value) ∈ result ↔
      low ≤ userKey ∧ Visible streams.entries seqNo userKey value

end Streams

/-! ## What is left after the seek -/

/-- What is left of a chain of pages: nothing if the search of the first page ends behind
it, and else the entries from the one found on, with an empty spot for each page without
entries. -/
def leftOnPages (target : InternalKey) : List (List Entry) → List Spot
  | [] => []
  | first :: others =>
      let offset := pageFindOffsetBol (leafKeys (first.map Entry.item)) target.encode
      if offset < first.length then
        (first.drop offset).map some ++ others.flatMap spots
      else []

def Component.left (target : InternalKey) : Component → List Spot
  | .sorted entries =>
      (entries.dropWhile (fun entry => (entry.key.compare target).isLT)).map some
  | .pages chain => leftOnPages target chain

namespace Streams

variable (streams : Streams)

def left (seqNo : Nat) (low : Slice) : List (List Spot) :=
  streams.components.map (Component.left ⟨low, seqNo, kValueTypeForSeek⟩)

def leftEntries (seqNo : Nat) (low : Slice) : List Entry :=
  (streams.left seqNo low).flatten.reduceOption

end Streams

/-- Nothing is left beside a chain of pages when a page without entries comes up in it:
what the others have is in front of the entry before that page. -/
def Undisturbed (lefts : List (List Spot)) : Prop :=
  ∀ (place : Nat) (front : List Spot) (last : Entry) (behind : List Spot),
    lefts[place]? = some (front ++ some last :: none :: behind) →
    ∀ (other : Nat) (list : List Spot), other ≠ place → lefts[other]? = some list →
      ∀ spot ∈ list, ∃ entry, spot = some entry ∧
        if other < place then last.before entry = false else entry.before last = true

/-- What the seek of the pages does to the scan does not matter. -/
structure Streams.Harmless (streams : Streams) (seqNo : Nat) (low : Slice) : Prop where
  /-- A newest version that is passed over has a substitute. -/
  passed : ∀ entry, Newest streams.entries seqNo entry → low ≤ entry.userKey →
    entry ∉ streams.leftEntries seqNo low → Agrees (streams.leftEntries seqNo low) seqNo entry
  /-- What is left below the lower end is not visible. -/
  early : ∀ entry, Newest (streams.leftEntries seqNo low) seqNo entry →
    entry.userKey < low → entry.key.type = .kTypeDeletion
  undisturbed : Undisturbed (streams.left seqNo low)
  /-- The short `Next` stops on no page without entries. -/
  filled : streams.components.all Component.isPages = true →
    StoredOnceAndLive streams.entries seqNo → ∀ list ∈ streams.left seqNo low, none ∉ list

/-! ## The children -/

theorem spots_cons (entry : Entry) (entries : List Entry) :
    spots (entry :: entries) = some entry :: entries.map some := rfl

@[simp] theorem reduceOption_map_some (entries : List Entry) :
    (entries.map some).reduceOption = entries := by
  induction entries with
  | nil => rfl
  | cons entry entries ih => rw [List.map_cons, List.reduceOption_cons_of_some, ih]

@[simp] theorem reduceOption_spots (entries : List Entry) :
    (spots entries).reduceOption = entries := by
  cases entries with
  | nil => rfl
  | cons entry entries => exact reduceOption_map_some (entry :: entries)

@[simp] theorem reduceOption_flatMap_spots (pages : List (List Entry)) :
    (pages.flatMap spots).reduceOption = pages.flatten := by
  induction pages with
  | nil => rfl
  | cons page pages ih =>
      rw [List.flatMap_cons, List.reduceOption_append, ih, reduceOption_spots, List.flatten_cons]

theorem exists_map_some {stream : List Spot} (filled : none ∉ stream) :
    ∃ entries : List Entry, stream = entries.map some := by
  induction stream with
  | nil => exact ⟨[], rfl⟩
  | cons spot stream ih =>
      rw [List.mem_cons, not_or] at filled
      obtain ⟨entries, rfl⟩ := ih filled.2
      obtain ⟨entry, rfl⟩ := Option.ne_none_iff_exists'.mp (Ne.symm filled.1)
      exact ⟨entry :: entries, rfl⟩

namespace PagesIterator

variable (child : PagesIterator)

theorem page_length : child.iterator.page.length = child.page.length := by
  rw [PageIterator.page, child.same, PagesIterator.page, List.getElem?_map]
  cases child.pages[child.iterator.vecIndex]? with
  | none => rfl
  | some entries => exact List.length_map ..

/-- What the page iterator reads is the entry that it stands on. -/
theorem item_eq : (child.iterator.key, child.iterator.value) =
    (child.spot.map Entry.item).getD ([], []) := by
  have isPage : child.iterator.page = child.page.map Entry.item := by
    rw [PageIterator.page, child.same, PagesIterator.page, List.getElem?_map]
    cases child.pages[child.iterator.vecIndex]? with
    | none => rfl
    | some entries => rfl
  rw [PageIterator.key, PageIterator.value, isPage, PagesIterator.spot]
  simp only [pageReadPivotAtOffset, pageReadValueAtOffset, leafKeys, List.getElem?_map]
  cases child.page[child.iterator.off]? with
  | none => rfl
  | some entry => rfl

theorem spots_drop (entries : List Entry) (offset : Nat) :
    spots (entries.drop offset) =
      entries[offset]? :: (entries.drop (offset + 1)).map some := by
  by_cases inside : offset < entries.length
  · rw [List.drop_eq_getElem_cons inside, spots_cons, List.getElem?_eq_getElem inside]
  · have past := Nat.not_lt.mp inside
    rw [List.drop_eq_nil_of_le past, List.drop_eq_nil_of_le (by omega),
      List.getElem?_eq_none past]
    rfl

variable {child}

theorem stream_of_valid (valid : child.iterator.valid = true) : child.stream =
    child.spot :: ((child.page.drop (child.iterator.off + 1)).map some ++
      (child.pages.drop (child.iterator.vecIndex + 1)).flatMap spots) := by
  rw [stream, spotsFrom, if_pos valid, spots_drop]
  rfl

theorem stream_of_invalid (invalid : child.iterator.valid = false) : child.stream = [] := by
  rw [stream, spotsFrom, invalid]
  rfl

/-- `Next` of a valid iterator goes on to the next spot. -/
theorem next_stream (valid : child.iterator.valid = true) :
    child.next.stream = child.stream.tail := by
  rw [stream_of_valid valid, List.tail_cons]
  have isNext : child.next.stream = spotsFrom child.pages child.iterator.next := rfl
  have pages : child.iterator.pages.length = child.pages.length := by
    rw [child.same, List.length_map]
  by_cases inside : child.iterator.off + 1 < child.page.length
  · have moved := PageIterator.next_of_inside (child.page_length ▸ inside)
    rw [isNext, moved, spotsFrom, if_pos rfl]
    show spots (child.page.drop (child.iterator.off + 1)) ++ _ = _
    rw [spots, if_neg (by simpa using inside)]
  · have ended := Nat.not_lt.mp inside
    rw [List.drop_eq_nil_of_le ended, List.map_nil, List.nil_append]
    by_cases more : child.iterator.vecIndex + 1 < child.pages.length
    · have moved := PageIterator.next_of_page_end (child.page_length ▸ ended)
        (pages.symm ▸ more)
      rw [isNext, moved, spotsFrom, if_pos rfl, List.drop_eq_getElem_cons more,
        List.flatMap_cons]
      simp [more]
    · have last := Nat.not_lt.mp more
      have moved := PageIterator.next_of_end (child.page_length ▸ ended) (pages.symm ▸ last)
      rw [isNext, moved, spotsFrom, if_neg Bool.false_ne_true, List.drop_eq_nil_of_le last]
      rfl

end PagesIterator

namespace Child

theorem spot_eq (child : Child) : child.spot = child.stream.head? := by
  cases child with
  | list entries => exact List.head?_map.symm
  | pages child =>
      rw [spot, stream]
      cases valid : child.iterator.valid with
      | false => rw [PagesIterator.stream_of_invalid valid]; rfl
      | true => rw [PagesIterator.stream_of_valid valid]; rfl

theorem next_stream {child : Child} (valid : child.spot ≠ none) :
    child.next.stream = child.stream.tail := by
  cases child with
  | list entries => exact List.map_tail
  | pages child =>
      apply PagesIterator.next_stream
      by_contra invalid
      exact valid (if_neg invalid)

end Child

theorem Component.seek_stream (target : InternalKey) (component : Component) :
    (component.seek target).stream = component.left target := by
  cases component with
  | sorted entries => rfl
  | pages chain =>
      have isStream : ((Component.pages chain).seek target).stream =
          PagesIterator.spotsFrom chain (PageIterator.seek
            ⟨chain.map (List.map Entry.item), 0, 0, false⟩ target.encode) := rfl
      rw [isStream, Component.left]
      cases chain with
      | nil => rfl
      | cons first others =>
          rw [leftOnPages]
          by_cases nonempty : first = []
          · subst nonempty
            rw [PagesIterator.spotsFrom, PageIterator.seek_of_empty rfl]
            rfl
          have filled : first.map Entry.item ≠ [] := by simpa using nonempty
          have samePages : (⟨(first :: others).map (List.map Entry.item), 0, 0, false⟩ :
            PageIterator).pages = first.map Entry.item :: others.map (List.map Entry.item) := rfl
          have sameLength : (first.map Entry.item).length = first.length := List.length_map ..
          by_cases inside : pageFindOffsetBol (leafKeys (first.map Entry.item)) target.encode <
              first.length
          · have sought := @PageIterator.seek_of_inside _ (first.map Entry.item)
              (others.map (List.map Entry.item)) target.encode samePages filled
              (sameLength ▸ inside)
            rw [if_pos inside, sought, PagesIterator.spotsFrom, if_pos rfl]
            simp [spots, inside]
          · have ended : pageFindOffsetBol (leafKeys (first.map Entry.item)) target.encode =
                (first.map Entry.item).length :=
              Nat.le_antisymm (pageFindOffsetBol_le filled _) (by omega)
            rw [if_neg inside, PagesIterator.spotsFrom, PageIterator.seek_of_end samePages ended]
            rfl

/-! ## The merge -/

/-- What `FindSmallest` has found among what the children stand on.  The first of equal
entries is taken. -/
def Found (heads : List (Option Spot)) : Option (Nat × Spot) → Prop
  | none => ∀ head ∈ heads, head = none
  | some (place, spot) => heads[place]? = some (some spot) ∧
      ∀ other head, other ≠ place → heads[other]? = some (some head) →
        ∃ entry least, head = some entry ∧ spot = some least ∧
          if other < place then least.before entry = true else entry.before least = false

/-- A key is compared that is not there. -/
def Clashes (heads : List (Option Spot)) : Prop :=
  ∃ (place other : Nat) (spot : Spot), place ≠ other ∧ heads[place]? = some (some none) ∧
    heads[other]? = some (some spot)

section FindSmallest

variable {front heads : List (Option Spot)} {found : Option (Nat × Spot)}

theorem getElem?_concat {other : Nat} {last : Option Spot} {head : Spot}
    (here : (front ++ [last])[other]? = some (some head)) :
    front[other]? = some (some head) ∨ other = front.length ∧ last = some head := by
  rcases Nat.lt_trichotomy other front.length with inside | rfl | outside
  · exact .inl (List.getElem?_append_left inside ▸ here)
  · exact .inr ⟨rfl, by simpa using here⟩
  · rw [List.getElem?_eq_none (by simp; omega)] at here
    cases here

theorem lt_of_getElem? {other : Nat} {head : Spot} (here : front[other]? = some (some head)) :
    other < front.length :=
  (List.getElem?_eq_some_iff.mp here).1

theorem Found.concat_none (isFound : Found front found) : Found (front ++ [none]) found := by
  cases found with
  | none =>
      intro head member
      rcases List.mem_append.mp member with old | new
      · exact isFound head old
      · exact List.mem_singleton.mp new
  | some best =>
      obtain ⟨here, least⟩ := isFound
      refine ⟨List.getElem?_append_left (lt_of_getElem? here) ▸ here, ?_⟩
      intro other head different isHead
      rcases getElem?_concat isHead with old | ⟨-, new⟩
      · exact least other head different old
      · cases new

theorem Found.concat_first (isFound : Found front none) (spot : Spot) :
    Found (front ++ [some spot]) (some (front.length, spot)) := by
  refine ⟨by simp, fun other head different isHead => ?_⟩
  rcases getElem?_concat isHead with old | ⟨same, -⟩
  · cases isFound _ (List.mem_of_getElem? old)
  · exact absurd same different

theorem Found.concat_smaller {place : Nat} {best entry : Entry}
    (isFound : Found front (some (place, some best))) (smaller : entry.before best = true) :
    Found (front ++ [some (some entry)]) (some (front.length, some entry)) := by
  obtain ⟨here, least⟩ := isFound
  refine ⟨by simp, fun other head different isHead => ?_⟩
  rcases getElem?_concat isHead with old | ⟨same, -⟩
  · have inside := lt_of_getElem? old
    by_cases same : other = place
    · subst same
      rw [here] at old
      cases old
      exact ⟨best, entry, rfl, rfl, by rwa [if_pos inside]⟩
    · obtain ⟨known, other, rfl, isBest, order⟩ := least other head same old
      cases isBest
      refine ⟨known, entry, rfl, rfl, ?_⟩
      rw [if_pos inside]
      have notBefore : known.before best = false := by
        split at order
        · exact Entry.before_strictOrder.asymm _ _ order
        · exact order
      by_contra behind
      have notSmaller := Entry.before_strictOrder.trans best known entry notBefore
        (Bool.eq_false_iff.mpr behind)
      rw [smaller] at notSmaller
      cases notSmaller
  · exact absurd same different

theorem Found.concat_larger {place : Nat} {best entry : Entry}
    (isFound : Found front (some (place, some best))) (larger : entry.before best = false) :
    Found (front ++ [some (some entry)]) (some (place, some best)) := by
  obtain ⟨here, least⟩ := isFound
  refine ⟨List.getElem?_append_left (lt_of_getElem? here) ▸ here, ?_⟩
  intro other head different isHead
  rcases getElem?_concat isHead with old | ⟨rfl, new⟩
  · exact least other head different old
  · cases new
    refine ⟨entry, best, rfl, rfl, ?_⟩
    rwa [if_neg (lt_of_getElem? here).not_gt]

/-- The rest of the loop. -/
theorem findSmallest_spec (isFound : Found front found) (heads : List (Option Spot)) :
    (∀ result, findSmallest front.length found heads = .ok result →
      Found (front ++ heads) result) ∧
    ∀ halt, findSmallest front.length found heads = .error halt →
      Clashes (front ++ heads) := by
  induction heads generalizing front found with
  | nil =>
      refine ⟨fun result done => ?_, fun halt done => ?_⟩
      · cases done
        rwa [List.append_nil]
      · cases done
  | cons head heads ih =>
      -- the loop goes on behind `head`
      have further : ∀ {next}, Found (front ++ [head]) next →
          (∀ result, findSmallest (front.length + 1) next heads = .ok result →
            Found (front ++ head :: heads) result) ∧
          ∀ halt, findSmallest (front.length + 1) next heads = .error halt →
            Clashes (front ++ head :: heads) := by
        intro next isNext
        have rest := ih isNext
        rwa [List.length_append, List.length_singleton, List.append_assoc] at rest
      cases head with
      | none =>
          rw [findSmallest]
          exact further isFound.concat_none
      | some spot =>
          cases found with
          | none => exact further (isFound.concat_first spot)
          | some best =>
              obtain ⟨place, least⟩ := best
              have atPlace : (front ++ some spot :: heads)[place]? = some (some least) := by
                rw [List.getElem?_append_left (lt_of_getElem? isFound.1)]
                exact isFound.1
              have atEnd : (front ++ some spot :: heads)[front.length]? = some (some spot) := by
                simp
              have apart : place ≠ front.length := (lt_of_getElem? isFound.1).ne
              rw [findSmallest]
              cases spot with
              | none =>
                  refine ⟨fun result done => ?_, fun halt _ => ?_⟩
                  · cases done
                  · exact ⟨front.length, place, least, apart.symm, atEnd, atPlace⟩
              | some entry =>
                  cases least with
                  | none =>
                      refine ⟨fun result done => ?_, fun halt _ => ?_⟩
                      · cases done
                      · exact ⟨place, front.length, some entry, apart, atPlace, atEnd⟩
                  | some least =>
                      simp only [Spot.less]
                      cases order : entry.before least with
                      | true => exact further (isFound.concat_smaller order)
                      | false => exact further (isFound.concat_larger order)

theorem found_of_ok (done : findSmallest 0 none heads = .ok found) : Found heads found :=
  (@findSmallest_spec [] none (fun _ none => absurd none List.not_mem_nil) heads).1 found done

theorem clashes_of_error {halt : ScanHalt} (done : findSmallest 0 none heads = .error halt) :
    Clashes heads :=
  (@findSmallest_spec [] none (fun _ none => absurd none List.not_mem_nil) heads).2 halt done

/-- Without a comparison of a key that is not there something is found, or nothing is left. -/
theorem Found.not_clashes (isFound : Found heads found) : ¬ Clashes heads := by
  rintro ⟨place, other, spot, different, empty, isSpot⟩
  cases found with
  | none => cases isFound _ (List.mem_of_getElem? empty)
  | some best =>
      obtain ⟨chosen, least⟩ := best
      by_cases same : place = chosen
      · subst same
        obtain ⟨-, _, -, isLeast, -⟩ := isFound.2 other spot different.symm isSpot
        rw [isFound.1] at empty
        cases empty
        cases isLeast
      · obtain ⟨entry, -, isEntry, -⟩ := isFound.2 place none same empty
        cases isEntry

end FindSmallest

/-- The merge of the lists is delivered to its end, with these spots in this order. -/
def Delivers : List Spot → List (List Spot) → Prop
  | [], lefts => findSmallest 0 none (lefts.map List.head?) = .ok none
  | spot :: stream, lefts => ∃ place,
      findSmallest 0 none (lefts.map List.head?) = .ok (some (place, spot)) ∧
        Delivers stream (Lib.advance lefts place)

/-- Entries are in order, whatever empty spots are between them. -/
def InKeyOrder (list : List Spot) : Prop :=
  list.reduceOption.Pairwise (fun front behind => behind.before front = false)

section Merge

variable {lefts : List (List Spot)} {stream : List Spot} {place : Nat} {spot : Spot}

theorem head_getElem? {other : Nat} {list : List Spot} (here : lefts[other]? = some list) :
    (lefts.map List.head?)[other]? = some list.head? := by
  rw [List.getElem?_map, here]
  rfl

theorem exists_of_head (isHead : (lefts.map List.head?)[place]? = some (some spot)) :
    ∃ rest, lefts[place]? = some (spot :: rest) := by
  rw [List.getElem?_map] at isHead
  obtain ⟨list, here, isFirst⟩ := Option.map_eq_some_iff.mp isHead
  obtain ⟨rest, rfl⟩ := List.head?_eq_some_iff.mp isFirst
  exact ⟨rest, here⟩

theorem Found.list (isFound : Found (lefts.map List.head?) (some (place, spot))) :
    ∃ rest, lefts[place]? = some (spot :: rest) :=
  exists_of_head isFound.1

theorem advance_self {rest : List Spot} (here : lefts[place]? = some (spot :: rest)) :
    (Lib.advance lefts place)[place]? = some rest := by
  rw [Lib.advance, List.getElem?_modify, here]
  simp

theorem advance_other {other : Nat} (different : other ≠ place) :
    (Lib.advance lefts place)[other]? = lefts[other]? := by
  rw [Lib.advance, List.getElem?_modify]
  cases lefts[other]? with
  | none => rfl
  | some list => exact congrArg some (if_neg different.symm)

theorem InKeyOrder.tail {list : List Spot} (order : InKeyOrder list) : InKeyOrder list.tail := by
  cases list with
  | nil => exact order
  | cons spot list =>
      cases spot with
      | none => exact order
      | some entry => exact (List.pairwise_cons.mp order).2

theorem inKeyOrder_advance (sorted : ∀ list ∈ lefts, InKeyOrder list) (place : Nat) :
    ∀ list ∈ Lib.advance lefts place, InKeyOrder list := by
  intro list member
  obtain ⟨index, here⟩ := List.getElem?_of_mem member
  by_cases same : index = place
  · subst same
    rw [Lib.advance, List.getElem?_modify] at here
    obtain ⟨before, isBefore, rfl⟩ := Option.map_eq_some_iff.mp here
    rw [if_pos rfl]
    exact (sorted before (List.mem_of_getElem? isBefore)).tail
  · rw [advance_other same] at here
    exact sorted list (List.mem_of_getElem? here)

theorem length_advance {rest : List Spot} (here : lefts[place]? = some (spot :: rest)) :
    (Lib.advance lefts place).flatten.length + 1 = lefts.flatten.length := by
  have permuted := (Lib.StrictOrder.flatten_advance_perm here).length_eq
  rwa [List.length_cons] at permuted

theorem Delivers.perm (delivers : Delivers stream lefts) : stream.Perm lefts.flatten := by
  induction stream generalizing lefts with
  | nil =>
      have nothing := found_of_ok delivers
      have empty : lefts.flatten = [] := by
        refine List.flatten_eq_nil_iff.mpr fun list member => ?_
        exact List.head?_eq_none_iff.mp (nothing _ (List.mem_map_of_mem member))
      rw [empty]
  | cons spot stream ih =>
      obtain ⟨place, isFound, rest⟩ := delivers
      obtain ⟨list, here⟩ := (found_of_ok isFound).list
      exact ((ih rest).cons spot).trans (Lib.StrictOrder.flatten_advance_perm here)

theorem InKeyOrder.not_before {list : List Spot} (order : InKeyOrder list) {first entry : Entry}
    (isFirst : list.head? = some (some first)) (member : some entry ∈ list) :
    entry.before first = false := by
  obtain ⟨rest, rfl⟩ := List.head?_eq_some_iff.mp isFirst
  rcases List.mem_cons.mp member with same | later
  · obtain rfl : entry = first := Option.some.inj same
    exact Entry.before_strictOrder.irrefl _
  · exact (List.pairwise_cons.mp order).1 entry (List.reduceOption_mem_iff.mpr later)

/-- The entry found comes before those of the other lists. -/
theorem Found.in_front {least entry : Entry} (sorted : ∀ list ∈ lefts, InKeyOrder list)
    (isFound : Found (lefts.map List.head?) (some (place, some least))) {other : Nat}
    {list : List Spot} (different : other ≠ place) (here : lefts[other]? = some list)
    (member : some entry ∈ list) :
    if place < other then entry.before least = false else least.before entry = true := by
  obtain ⟨first, isFirst⟩ : ∃ first, list.head? = some first := by
    cases list with
    | nil => cases member
    | cons first rest => exact ⟨first, rfl⟩
  obtain ⟨head, _, rfl, isLeast, order⟩ :=
    isFound.2 other first different (by rw [head_getElem? here, isFirst])
  cases isLeast
  have behind := (sorted list (List.mem_of_getElem? here)).not_before isFirst member
  rcases Nat.lt_or_gt_of_ne different with below | above
  · rw [if_pos below] at order
    rw [if_neg below.not_gt]
    by_contra notBefore
    have notHead := Entry.before_strictOrder.trans head entry least behind
      (Bool.eq_false_iff.mpr notBefore)
    rw [order] at notHead
    cases notHead
  · rw [if_neg above.not_gt] at order
    rw [if_pos above]
    exact Entry.before_strictOrder.trans least head entry order behind

/-- Nothing that is left is in front of the entry found. -/
theorem Found.least {least entry : Entry} (sorted : ∀ list ∈ lefts, InKeyOrder list)
    (isFound : Found (lefts.map List.head?) (some (place, some least)))
    (member : some entry ∈ lefts.flatten) : entry.before least = false := by
  obtain ⟨list, isList, inside⟩ := List.mem_flatten.mp member
  obtain ⟨other, here⟩ := List.getElem?_of_mem isList
  by_cases same : other = place
  · subst same
    have atPlace := isFound.1
    rw [head_getElem? here, Option.some_inj] at atPlace
    exact (sorted list isList).not_before atPlace inside
  · have order := isFound.in_front sorted same here inside
    split at order
    · exact order
    · exact Entry.before_strictOrder.asymm _ _ order

theorem Delivers.ascending (sorted : ∀ list ∈ lefts, InKeyOrder list)
    (delivers : Delivers stream lefts) : InKeyOrder stream := by
  induction stream generalizing lefts with
  | nil => exact .nil
  | cons spot stream ih =>
      obtain ⟨place, isFound, rest⟩ := delivers
      have later := ih (inKeyOrder_advance sorted place) rest
      cases spot with
      | none => exact later
      | some least =>
          have isLeast := found_of_ok isFound
          obtain ⟨list, here⟩ := isLeast.list
          refine List.pairwise_cons.mpr ⟨fun entry member => ?_, later⟩
          refine isLeast.least sorted ((Lib.StrictOrder.flatten_advance_perm here).subset ?_)
          exact List.mem_cons_of_mem _ (rest.perm.subset (List.reduceOption_mem_iff.mp member))

/-! ## When the merge comes to its end -/

/-- With one list left nothing is compared. -/
theorem not_clashes_of_alone
    (alone : ∀ other list, other ≠ place → lefts[other]? = some list → list = []) :
    ¬ Clashes (lefts.map List.head?) := by
  have isPlace : ∀ (other : Nat) (spot : Spot),
      (lefts.map List.head?)[other]? = some (some spot) → other = place := by
    intro other spot isSpot
    by_contra different
    obtain ⟨list, here⟩ := exists_of_head isSpot
    cases alone other _ different here
  rintro ⟨here, there, spot, different, isNone, isSpot⟩
  exact different ((isPlace here none isNone).trans (isPlace there spot isSpot).symm)

theorem undisturbed_of_alone
    (alone : ∀ other list, other ≠ place → lefts[other]? = some list → list = []) :
    Undisturbed lefts := by
  intro here front last behind isHere other list different isOther spot member
  by_cases same : here = place
  · rw [alone other list (same ▸ different) isOther] at member
    cases member
  · have empty := alone here _ same isHere
    simp at empty

theorem alone_of_found (isFound : Found (lefts.map List.head?) (some (place, none))) :
    ∀ other list, other ≠ place → lefts[other]? = some list → list = [] := by
  intro other list different here
  cases list with
  | nil => rfl
  | cons spot list =>
      obtain ⟨-, _, -, isLeast, -⟩ := isFound.2 other spot different (head_getElem? here)
      cases isLeast

section Taken

variable {least : Entry} (isFound : Found (lefts.map List.head?) (some (place, some least)))

include isFound

/-- If an empty spot comes up behind the entry found, the other lists are used up. -/
theorem Undisturbed.alone (calm : Undisturbed lefts) {behind : List Spot}
    (here : lefts[place]? = some (some least :: none :: behind)) :
    ∀ other list, other ≠ place → lefts[other]? = some list → list = [] := by
  intro other list different isOther
  cases list with
  | nil => rfl
  | cons spot list =>
      obtain ⟨entry, _, rfl, isLeast, order⟩ :=
        isFound.2 other spot different (head_getElem? isOther)
      cases isLeast
      obtain ⟨same, isSame, inFront⟩ := calm place [] least behind here other _ different
        isOther (some entry) List.mem_cons_self
      cases isSame
      by_cases below : other < place
      · rw [if_pos below] at order inFront
        rw [order] at inFront
        cases inFront
      · rw [if_neg below] at order inFront
        rw [order] at inFront
        cases inFront

theorem Undisturbed.not_clashes (calm : Undisturbed lefts) :
    ¬ Clashes ((Lib.advance lefts place).map List.head?) := by
  obtain ⟨rest, here⟩ := isFound.list
  rintro ⟨there, other, spot, different, isNone, isSpot⟩
  obtain ⟨behind, atNone⟩ := exists_of_head isNone
  by_cases same : there = place
  · subst same
    rw [advance_self here] at atNone
    obtain ⟨list, atOther⟩ := exists_of_head isSpot
    rw [advance_other different.symm] at atOther
    cases calm.alone isFound (Option.some.inj atNone ▸ here) other _ different.symm atOther
  · rw [advance_other same] at atNone
    obtain ⟨entry, _, isEntry, -⟩ := isFound.2 there none same (head_getElem? atNone)
    cases isEntry

theorem Undisturbed.advance (calm : Undisturbed lefts) :
    Undisturbed (Lib.advance lefts place) := by
  obtain ⟨rest, here⟩ := isFound.list
  intro there front last behind isThere other list different isOther spot member
  by_cases same : there = place
  · subst same
    rw [advance_self here] at isThere
    rw [advance_other different] at isOther
    have whole : lefts[there]? =
        some ((some least :: front) ++ some last :: none :: behind) := by
      rw [here, Option.some.inj isThere]
      rfl
    exact calm there _ last behind whole other list different isOther spot member
  · rw [advance_other same] at isThere
    by_cases isPlace : other = place
    · subst isPlace
      rw [advance_self here] at isOther
      cases isOther
      exact calm there front last behind isThere other _ different here spot
        (List.mem_cons_of_mem _ member)
    · rw [advance_other isPlace] at isOther
      exact calm there front last behind isThere other list different isOther spot member

theorem undisturbed_of_advance (sorted : ∀ list ∈ lefts, InKeyOrder list)
    (noClash : ¬ Clashes ((Lib.advance lefts place).map List.head?))
    (calm : Undisturbed (Lib.advance lefts place)) : Undisturbed lefts := by
  obtain ⟨rest, here⟩ := isFound.list
  have moved := advance_self here
  intro there front last behind isThere other list different isOther spot member
  by_cases same : there = place
  · subst same
    have isOtherMoved := (advance_other different).trans isOther
    have split := Option.some.inj (here.symm.trans isThere)
    cases front with
    | nil =>
        have isRest : rest = none :: behind := (List.cons.inj split).2
        rw [isRest] at moved
        cases list with
        | nil => cases member
        | cons first list =>
            exact absurd ⟨there, other, first, different.symm, head_getElem? moved,
              head_getElem? isOtherMoved⟩ noClash
    | cons first front =>
        have isRest := (List.cons.inj split).2
        exact calm there front last behind (moved.trans (congrArg some isRest)) other list
          different isOtherMoved spot member
  · have isThereMoved := (advance_other same).trans isThere
    by_cases isPlace : other = place
    · subst isPlace
      rw [here] at isOther
      cases isOther
      rcases List.mem_cons.mp member with rfl | later
      · refine ⟨least, rfl, isFound.in_front sorted same isThere ?_⟩
        exact List.mem_append_right _ List.mem_cons_self
      · exact calm there front last behind isThereMoved other rest different moved spot later
    · exact calm there front last behind isThereMoved other list different
        ((advance_other isPlace).trans isOther) spot member

end Taken

theorem Delivers.not_clashes (delivers : Delivers stream lefts) :
    ¬ Clashes (lefts.map List.head?) := by
  cases stream with
  | nil => exact (found_of_ok delivers).not_clashes
  | cons spot stream =>
      obtain ⟨place, done, -⟩ := delivers
      exact (found_of_ok done).not_clashes

/-- The merge comes to its end exactly if no page without entries comes up while something
else is left. -/
theorem delivers_iff_undisturbed (sorted : ∀ list ∈ lefts, InKeyOrder list)
    (noClash : ¬ Clashes (lefts.map List.head?)) :
    (∃ stream, Delivers stream lefts) ↔ Undisturbed lefts := by
  generalize size : lefts.flatten.length = count
  induction count generalizing lefts with
  | zero =>
      have empty := List.flatten_eq_nil_iff.mp (List.eq_nil_of_length_eq_zero size)
      have nothing : Undisturbed lefts := @undisturbed_of_alone _ 0
        fun other list _ here => empty list (List.mem_of_getElem? here)
      refine iff_of_true ⟨[], ?_⟩ nothing
      cases done : findSmallest 0 none (lefts.map List.head?) with
      | error halt => exact absurd (clashes_of_error done) noClash
      | ok found =>
          cases found with
          | none => exact done
          | some best =>
              obtain ⟨rest, here⟩ := (found_of_ok done).list
              cases empty _ (List.mem_of_getElem? here)
  | succ count ih =>
      cases done : findSmallest 0 none (lefts.map List.head?) with
      | error halt => exact absurd (clashes_of_error done) noClash
      | ok found =>
          have isFound := found_of_ok done
          cases found with
          | none =>
              have empty : lefts.flatten = [] :=
                List.flatten_eq_nil_iff.mpr fun list member =>
                  List.head?_eq_none_iff.mp (isFound _ (List.mem_map_of_mem member))
              rw [empty] at size
              cases size
          | some best =>
              obtain ⟨place, spot⟩ := best
              obtain ⟨rest, here⟩ := isFound.list
              have shorter : (Lib.advance lefts place).flatten.length = count := by
                have counted := length_advance here
                omega
              have goesOn : (∃ stream, Delivers stream lefts) ↔
                  ∃ stream, Delivers stream (Lib.advance lefts place) := by
                constructor
                · rintro ⟨stream, delivers⟩
                  cases stream with
                  | nil => cases done.symm.trans delivers
                  | cons other stream =>
                      obtain ⟨there, isThere, rest⟩ := delivers
                      cases done.symm.trans isThere
                      exact ⟨stream, rest⟩
                · rintro ⟨stream, delivers⟩
                  exact ⟨spot :: stream, place, done, delivers⟩
              rw [goesOn]
              have further := fun noClash => ih (inKeyOrder_advance sorted place) noClash shorter
              cases spot with
              | none =>
                  have alone := alone_of_found isFound
                  have aloneNext : ∀ other list, other ≠ place →
                      (Lib.advance lefts place)[other]? = some list → list = [] :=
                    fun other list different here =>
                      alone other list different ((advance_other different).symm.trans here)
                  exact iff_of_true ((further (not_clashes_of_alone aloneNext)).mpr
                    (undisturbed_of_alone aloneNext)) (undisturbed_of_alone alone)
              | some least =>
                  by_cases clash : Clashes ((Lib.advance lefts place).map List.head?)
                  · refine iff_of_false ?_ fun calm => calm.not_clashes isFound clash
                    rintro ⟨stream, delivers⟩
                    exact delivers.not_clashes clash
                  · rw [further clash]
                    exact ⟨fun calm => undisturbed_of_advance isFound sorted clash calm,
                      fun calm => calm.advance isFound⟩

end Merge

/-! ## The iterator on the merge -/

theorem map_spot (children : List Child) :
    children.map Child.spot = (children.map Child.stream).map List.head? := by
  rw [List.map_map]
  exact List.map_congr_left fun child _ => child.spot_eq

theorem map_stream_modify {children : List Child} {place : Nat} {spot : Spot}
    {rest : List Spot} (here : (children.map Child.stream)[place]? = some (spot :: rest)) :
    (children.modify place Child.next).map Child.stream =
      Lib.advance (children.map Child.stream) place := by
  refine List.ext_getElem? fun other => ?_
  rw [List.getElem?_map] at here ⊢
  rw [Lib.advance, List.getElem?_modify, List.getElem?_modify, List.getElem?_map]
  by_cases same : place = other
  · subst same
    obtain ⟨child, isChild, isStream⟩ := Option.map_eq_some_iff.mp here
    have valid : child.spot ≠ none := by
      rw [child.spot_eq, isStream]
      exact Option.some_ne_none spot
    rw [isChild]
    simp [Child.next_stream valid]
  · cases children[other]? with
    | none => rfl
    | some child => simp [same]

namespace SortedTreeIterator

/-- The children have these spots left, and the smallest of the first ones is found. -/
structure Stands (iterator : SortedTreeIterator) (lefts : List (List Spot)) : Prop where
  children : iterator.inner.children.map Child.stream = lefts
  found : findSmallest 0 none (lefts.map List.head?) = .ok iterator.inner.current

/-- The merging iterator has moved on, and nothing else has changed. -/
structure Moved (before after : SortedTreeIterator) (lefts : List (List Spot)) : Prop where
  stands : after.Stands lefts
  savedKey : after.savedKey = before.savedKey
  valid : after.valid = before.valid
  allPage : after.allPage = before.allPage

/-- The iterator will stand on these spots in turn. -/
def Faces (iterator : SortedTreeIterator) (stream : List Spot) : Prop :=
  ∃ lefts, iterator.Stands lefts ∧ Delivers stream lefts

variable {iterator moved after : SortedTreeIterator} {lefts : List (List Spot)}
  {place : Nat} {spot second : Spot} {stream : List Spot} {seqNo : Nat}
  {result : List (Slice × Slice)}

theorem Stands.congr (stands : iterator.Stands lefts) (same : after.inner = iterator.inner) :
    after.Stands lefts :=
  ⟨same ▸ stands.children, same ▸ stands.found⟩

theorem Faces.congr (faces : iterator.Faces stream) (same : after.inner = iterator.inner) :
    after.Faces stream := by
  obtain ⟨lefts, stands, delivers⟩ := faces
  exact ⟨lefts, stands.congr same, delivers⟩

theorem Stands.list (stands : iterator.Stands lefts)
    (here : iterator.inner.current = some (place, spot)) :
    ∃ rest, lefts[place]? = some (spot :: rest) :=
  (found_of_ok (here ▸ stands.found)).list

theorem Stands.innerNext_eq (stands : iterator.Stands lefts)
    (here : iterator.inner.current = some (place, spot)) : iterator.innerNext =
      (findSmallest 0 none ((Lib.advance lefts place).map List.head?)).map fun current =>
        { iterator with
          inner := ⟨iterator.inner.children.modify place Child.next, current⟩ } := by
  obtain ⟨rest, isList⟩ := stands.list here
  have spots := map_spot (iterator.inner.children.modify place Child.next)
  rw [map_stream_modify (stands.children ▸ isList), stands.children] at spots
  rw [innerNext, MergingIterator.next, here]
  simp only [MergingIterator.positioned, spots]
  cases findSmallest 0 none ((Lib.advance lefts place).map List.head?) with
  | error halt => rfl
  | ok current => rfl

theorem Stands.moves (stands : iterator.Stands lefts)
    (here : iterator.inner.current = some (place, spot))
    (done : iterator.innerNext = .ok moved) :
    Moved iterator moved (Lib.advance lefts place) := by
  obtain ⟨rest, isList⟩ := stands.list here
  rw [stands.innerNext_eq here] at done
  cases found : findSmallest 0 none ((Lib.advance lefts place).map List.head?) with
  | error halt =>
      rw [found] at done
      cases done
  | ok current =>
      rw [found] at done
      cases done
      refine ⟨⟨?_, found⟩, rfl, rfl, rfl⟩
      rw [map_stream_modify (stands.children ▸ isList), stands.children]

theorem Faces.current_nil (faces : iterator.Faces []) : iterator.inner.current = none := by
  obtain ⟨lefts, stands, delivers⟩ := faces
  exact Except.ok.inj (stands.found.symm.trans delivers)

theorem Faces.current_cons (faces : iterator.Faces (spot :: stream)) :
    ∃ place, iterator.inner.current = some (place, spot) := by
  obtain ⟨lefts, stands, place, found, -⟩ := faces
  exact ⟨place, Except.ok.inj (stands.found.symm.trans found)⟩

theorem Faces.innerNext (faces : iterator.Faces (spot :: stream)) :
    ∃ moved, iterator.innerNext = .ok moved ∧ moved.Faces stream ∧
      moved.savedKey = iterator.savedKey ∧ moved.valid = iterator.valid ∧
      moved.allPage = iterator.allPage := by
  obtain ⟨lefts, stands, place, found, rest⟩ := faces
  have here : iterator.inner.current = some (place, spot) :=
    Except.ok.inj (stands.found.symm.trans found)
  obtain ⟨current, isNext⟩ : ∃ current,
      findSmallest 0 none ((Lib.advance lefts place).map List.head?) = .ok current := by
    cases stream with
    | nil => exact ⟨_, rest⟩
    | cons next stream =>
        obtain ⟨there, isThere, -⟩ := rest
        exact ⟨_, isThere⟩
  have done := stands.innerNext_eq here
  rw [isNext] at done
  have moves := stands.moves here done
  exact ⟨_, done, ⟨_, moves.stands, rest⟩, moves.savedKey, moves.valid, moves.allPage⟩

theorem Faces.rounds (faces : iterator.Faces stream) : iterator.rounds = stream.length := by
  obtain ⟨lefts, stands, delivers⟩ := faces
  rw [SortedTreeIterator.rounds, List.flatMap_def, stands.children, delivers.perm.length_eq]

/-! ## What a scan shows -/

/-- `FindNextUserEntry` and the moves after it show what the list scan shows. -/
theorem yields_findNextUserEntry (faces : iterator.Faces stream)
    {fuel : Nat} (enough : stream.length ≤ fuel) (skipping : Bool) :
    Yields (nextUserEntry seqNo)
      (shown seqNo (if skipping then some iterator.savedKey else none) stream.reduceOption)
      (findNextUserEntry seqNo fuel skipping iterator) := by
  induction stream generalizing iterator fuel skipping with
  | nil =>
      cases fuel with
      | zero => exact ⟨_, rfl, rfl⟩
      | succ fuel =>
          rw [findNextUserEntry, faces.current_nil]
          exact ⟨_, rfl, rfl⟩
  | cons spot stream ih =>
      obtain ⟨fuel, rfl⟩ : ∃ count, fuel = count + 1 :=
        ⟨fuel - 1, by simp only [List.length_cons] at enough; omega⟩
      have enoughLeft : stream.length ≤ fuel := by simpa using enough
      obtain ⟨place, here⟩ := faces.current_cons
      obtain ⟨next, isNext, nextFaces, sameSaved, -, -⟩ := faces.innerNext
      have goesOn := ih nextFaces enoughLeft skipping
      rw [sameSaved] at goesOn
      rw [findNextUserEntry, here]
      cases spot with
      | none =>
          simp only [isNext]
          exact goesOn
      | some entry =>
          rw [List.reduceOption_cons_of_some, shown]
          simp only
          have saved : ∀ valid, Faces { iterator with savedKey := entry.userKey, valid := valid }
              (some entry :: stream) := fun _ => faces.congr rfl
          by_cases seen : entry.sequence ≤ seqNo
          · rw [if_pos seen, if_pos seen]
            cases kind : entry.key.type with
            | kTypeDeletion =>
                obtain ⟨next, isNext, nextFaces, savedKey, -, -⟩ :=
                  (saved iterator.valid).innerNext
                have rest := ih nextFaces enoughLeft true
                rw [savedKey] at rest
                simp only [isNext]
                exact rest
            | kTypeValue =>
                by_cases hidden : (skipping &&
                    (Slice.compare entry.userKey iterator.savedKey).isLE) = true
                · simp only [hidden, if_true, isNext]
                  cases skipping with
                  | false => simp at hidden
                  | true =>
                      have below : entry.userKey ≤ iterator.savedKey := by
                        simpa using hidden
                      simpa [below, Except.bind] using goesOn
                · have notSkipped : (if skipping then some iterator.savedKey
                      else none).any (fun hidden =>
                        (Slice.compare entry.userKey hidden).isLE) = false := by
                    cases skipping with
                    | false => rfl
                    | true => simpa using hidden
                  simp only [hidden, notSkipped, Bool.false_eq_true, if_false]
                  refine ⟨_, rfl, by simp [SortedTreeIterator.entry, here], ?_⟩
                  obtain ⟨next, isNext, nextFaces, savedKey, -, -⟩ := (saved true).innerNext
                  simp only [nextUserEntry, here, isNext, Except.bind]
                  cases stream with
                  | nil =>
                      rw [nextFaces.current_nil]
                      exact ⟨_, rfl, rfl⟩
                  | cons second stream =>
                      obtain ⟨there, isThere⟩ := nextFaces.current_cons
                      have rest := ih nextFaces nextFaces.rounds.ge true
                      rw [savedKey] at rest
                      rw [isThere]
                      exact rest
          · rw [if_neg seen, if_neg seen]
            simp only [isNext]
            exact goesOn

/-! ## Scans that come to no end -/

theorem stream_nil_of_current (stands : iterator.Stands lefts)
    (here : iterator.inner.current = none) : Delivers [] lefts :=
  stands.found.trans (congrArg Except.ok here)

/-- Where the merge does not come to its end, it does not after a move. -/
theorem Stands.not_delivers_advance (stands : iterator.Stands lefts)
    (never : ¬ ∃ stream, Delivers stream lefts)
    (here : iterator.inner.current = some (place, spot)) :
    ¬ ∃ stream, Delivers stream (Lib.advance lefts place) := by
  rintro ⟨stream, rest⟩
  exact never ⟨spot :: stream, place, here ▸ stands.found, rest⟩

/-- `FindNextUserEntry` ends on an entry, or the process does. -/
theorem Stands.findNextUserEntry (stands : iterator.Stands lefts)
    (never : ¬ ∃ stream, Delivers stream lefts) {fuel : Nat}
    (enough : lefts.flatten.length ≤ fuel) {skipping : Bool}
    (done : findNextUserEntry seqNo fuel skipping iterator = .ok after) :
    after.valid = true ∧ ∃ lefts, after.Stands lefts ∧ ¬ ∃ stream, Delivers stream lefts := by
  induction fuel generalizing iterator lefts skipping with
  | zero =>
      cases here : iterator.inner.current with
      | none => exact absurd ⟨[], stream_nil_of_current stands here⟩ never
      | some best =>
          obtain ⟨rest, isList⟩ := @Stands.list iterator lefts best.1 best.2 stands here
          have counted := length_advance isList
          omega
  | succ fuel ih =>
      -- the loop goes on with the merge moved on
      have further : ∀ (ready : SortedTreeIterator) {place spot skipping},
          ready.inner = iterator.inner → iterator.inner.current = some (place, spot) →
          ready.innerNext.bind (SortedTreeIterator.findNextUserEntry seqNo fuel skipping) =
            .ok after →
          after.valid = true ∧
            ∃ lefts, after.Stands lefts ∧ ¬ ∃ stream, Delivers stream lefts := by
        intro ready place spot skipping same here ran
        have readyHere : ready.inner.current = some (place, spot) := same ▸ here
        cases isNext : ready.innerNext with
        | error halt =>
            rw [isNext] at ran
            cases ran
        | ok next =>
            rw [isNext] at ran
            obtain ⟨rest, isList⟩ := stands.list here
            have counted := length_advance isList
            exact ih ((stands.congr same).moves readyHere isNext).stands
              (stands.not_delivers_advance never here) (by omega) ran
      rw [SortedTreeIterator.findNextUserEntry] at done
      cases here : iterator.inner.current with
      | none => exact absurd ⟨[], stream_nil_of_current stands here⟩ never
      | some best =>
          obtain ⟨place, spot⟩ := best
          rw [here] at done
          cases spot with
          | none => exact further iterator rfl here done
          | some entry =>
              simp only at done
              split at done
              · split at done
                · exact further { iterator with savedKey := entry.userKey } rfl here done
                · split at done
                  · exact further iterator rfl here done
                  · cases done
                    exact ⟨rfl, lefts, stands.congr rfl, never⟩
              · exact further iterator rfl here done

theorem Yields.exists_ok {move : SortedTreeIterator → Except ScanHalt SortedTreeIterator}
    {start : Except ScanHalt SortedTreeIterator} (yields : Yields move result start) :
    ∃ iterator, start = .ok iterator := by
  cases result with
  | nil => exact ⟨yields.choose, yields.choose_spec.1⟩
  | cons shown rest => exact ⟨yields.choose, yields.choose_spec.1⟩

/-- A run that moves on until invalid has merged everything. -/
theorem not_yields_of_not_delivers (stands : iterator.Stands lefts)
    (never : ¬ ∃ stream, Delivers stream lefts) (valid : iterator.valid = true) :
    ¬ Yields (nextUserEntry seqNo) result (.ok iterator) := by
  induction result generalizing iterator lefts with
  | nil =>
      rintro ⟨same, isSame, invalid⟩
      cases isSame
      rw [valid] at invalid
      cases invalid
  | cons shown rest ih =>
      rintro ⟨same, isSame, -, later⟩
      cases isSame
      obtain ⟨next, isNext⟩ := later.exists_ok
      rw [isNext] at later
      rw [nextUserEntry] at isNext
      cases here : iterator.inner.current with
      | none => exact never ⟨[], stream_nil_of_current stands here⟩
      | some best =>
          obtain ⟨place, spot⟩ := best
          rw [here] at isNext
          cases spot with
          | none => cases isNext
          | some entry =>
              simp only at isNext
              cases isMoved : innerNext { iterator with savedKey := entry.userKey } with
              | error halt =>
                  rw [isMoved] at isNext
                  cases isNext
              | ok moved =>
                  rw [isMoved] at isNext
                  have ready : Stands { iterator with savedKey := entry.userKey } lefts :=
                    stands.congr rfl
                  have moves := ready.moves here isMoved
                  have neverMoved := stands.not_delivers_advance never here
                  have enough : moved.rounds = (Lib.advance lefts place).flatten.length := by
                    rw [rounds, List.flatMap_def, moves.stands.children]
                  simp only [Except.bind] at isNext
                  split at isNext
                  · rename_i isNone
                    exact neverMoved ⟨[], stream_nil_of_current moves.stands isNone⟩
                  · obtain ⟨nextValid, lefts, nextStands, nextNever⟩ :=
                      moves.stands.findNextUserEntry neverMoved enough.ge isNext
                    exact ih nextStands nextNever nextValid later

/-! ## The two ways to move on -/

theorem innerNext_allPage (done : iterator.innerNext = .ok moved) :
    moved.allPage = iterator.allPage := by
  rw [innerNext] at done
  cases isNext : iterator.inner.next with
  | error halt =>
      rw [isNext] at done
      cases done
  | ok inner =>
      rw [isNext] at done
      cases done
      rfl

theorem findNextUserEntry_allPage {fuel : Nat} {skipping : Bool}
    (done : findNextUserEntry seqNo fuel skipping iterator = .ok after) :
    after.allPage = iterator.allPage := by
  induction fuel generalizing iterator skipping with
  | zero =>
      cases done
      rfl
  | succ fuel ih =>
      have further : ∀ (ready : SortedTreeIterator) {skipping},
          ready.allPage = iterator.allPage →
          ready.innerNext.bind (findNextUserEntry seqNo fuel skipping) = .ok after →
          after.allPage = iterator.allPage := by
        intro ready skipping same ran
        cases isNext : ready.innerNext with
        | error halt =>
            rw [isNext] at ran
            cases ran
        | ok next =>
            rw [isNext] at ran
            rw [ih ran, innerNext_allPage isNext, same]
      rw [findNextUserEntry] at done
      split at done
      · cases done
        rfl
      · exact further iterator rfl done
      · rename_i entry _
        split at done
        · split at done
          · exact further { iterator with savedKey := entry.userKey } rfl done
          · split at done
            · exact further iterator rfl done
            · cases done
              rfl
        · exact further iterator rfl done

theorem nextUserEntry_allPage (done : iterator.nextUserEntry seqNo = .ok after) :
    after.allPage = iterator.allPage := by
  rw [nextUserEntry] at done
  split at done
  · cases done
  · cases done
  · rename_i entry _
    cases isMoved : innerNext { iterator with savedKey := entry.userKey } with
    | error halt =>
        rw [isMoved] at done
        cases done
    | ok moved =>
        rw [isMoved] at done
        have same := innerNext_allPage isMoved
        simp only [Except.bind] at done
        split at done
        · cases done
          exact same
        · rw [findNextUserEntry_allPage done, same]

theorem valid_of_entry {shown : Slice × Slice} (isEntry : iterator.entry = .ok shown) :
    iterator.valid = true ∧ ∃ place entry, iterator.inner.current = some (place, some entry) ∧
      shown = (entry.userKey, entry.value) := by
  rw [SortedTreeIterator.entry] at isEntry
  split at isEntry
  · rename_i place entry valid here
    cases isEntry
    exact ⟨valid, place, entry, here, rfl⟩
  · cases isEntry
  · cases isEntry

/-- Unless all components are pages, `Next` is the careful one. -/
theorem yields_next_iff {start : Except ScanHalt SortedTreeIterator}
    (mixed : ∀ iterator, start = .ok iterator → iterator.allPage = false) :
    Yields (next seqNo) result start ↔ Yields (nextUserEntry seqNo) result start := by
  induction result generalizing start with
  | nil => rfl
  | cons shown rest ih =>
      refine exists_congr fun iterator => ?_
      refine and_congr_right fun isStart => and_congr_right fun isEntry => ?_
      have notPages := mixed iterator isStart
      have same : iterator.next seqNo = iterator.nextUserEntry seqNo := by
        rw [next, (valid_of_entry isEntry).1, notPages]
        rfl
      rw [same]
      exact ih fun after done => (nextUserEntry_allPage done).trans notPages

theorem next_of_more (faces : iterator.Faces (spot :: second :: stream))
    (allPage : iterator.allPage = true) (valid : iterator.valid = true) :
    ∃ moved, iterator.next seqNo = .ok moved ∧ moved.Faces (second :: stream) ∧
      moved.allPage = true ∧ moved.valid = true := by
  obtain ⟨moved, isMoved, movedFaces, -, movedValid, movedAllPage⟩ := faces.innerNext
  obtain ⟨there, isThere⟩ := movedFaces.current_cons
  refine ⟨moved, ?_, movedFaces, movedAllPage.trans allPage, movedValid.trans valid⟩
  rw [next, valid, allPage, nextOnPages, isMoved]
  simp only [Except.map, isThere]
  rfl

/-- On pages only, `Next` shows all entries that are left. -/
theorem yields_next_of_allPage {first : Entry} {entries : List Entry}
    (faces : iterator.Faces ((first :: entries).map some)) (allPage : iterator.allPage = true)
    (valid : iterator.valid = true) :
    Yields (next seqNo) ((first :: entries).map (fun entry => (entry.userKey, entry.value)))
      (.ok iterator) := by
  induction entries generalizing iterator first with
  | nil =>
      obtain ⟨place, here⟩ := faces.current_cons
      obtain ⟨moved, isMoved, movedFaces, -, -, -⟩ := faces.innerNext
      refine ⟨iterator, rfl, by rw [entry, valid, here], ?_⟩
      rw [next, valid, allPage, nextOnPages, isMoved]
      exact ⟨_, rfl, by simp only [movedFaces.current_nil]⟩
  | cons second entries ih =>
      obtain ⟨place, here⟩ := faces.current_cons
      obtain ⟨moved, isNext, movedFaces, movedAllPage, movedValid⟩ :=
        next_of_more faces allPage valid
      refine ⟨iterator, rfl, by rw [entry, valid, here], ?_⟩
      rw [isNext]
      exact ih movedFaces movedAllPage movedValid

theorem first_of_yields {move : SortedTreeIterator → Except ScanHalt SortedTreeIterator}
    (faces : iterator.Faces (spot :: stream)) (valid : iterator.valid = true)
    (yields : Yields move result (.ok iterator)) :
    ∃ entry, spot = some entry ∧ ∃ rest, Yields move rest (move iterator) := by
  obtain ⟨place, here⟩ := faces.current_cons
  cases result with
  | nil =>
      obtain ⟨same, isSame, invalid⟩ := yields
      cases isSame
      rw [valid] at invalid
      cases invalid
  | cons shown rest =>
      obtain ⟨same, isSame, isEntry, later⟩ := yields
      cases isSame
      obtain ⟨-, there, entry, isCurrent, -⟩ := valid_of_entry isEntry
      rw [here] at isCurrent
      cases isCurrent
      exact ⟨entry, rfl, rest, later⟩

/-- And it does not get past a page without entries. -/
theorem none_not_mem_of_yields_next (faces : iterator.Faces (spot :: stream))
    (allPage : iterator.allPage = true) (valid : iterator.valid = true)
    (yields : Yields (next seqNo) result (.ok iterator)) : none ∉ spot :: stream := by
  induction stream generalizing iterator spot result with
  | nil =>
      obtain ⟨entry, isEntry, -⟩ := first_of_yields faces valid yields
      simp [isEntry]
  | cons second stream ih =>
      obtain ⟨entry, isEntry, rest, later⟩ := first_of_yields faces valid yields
      obtain ⟨moved, isNext, movedFaces, movedAllPage, movedValid⟩ :=
        @next_of_more iterator spot second stream seqNo faces allPage valid
      rw [isNext] at later
      rw [isEntry, List.mem_cons, not_or]
      exact ⟨(Option.some_ne_none entry).symm, ih movedFaces movedAllPage movedValid later⟩

section SeekBothEnds

variable {components : List Component} {low : Slice}

theorem sought_eq (components : List Component) (seqNo : Nat) (low : Slice) :
    sought components seqNo low =
      (findSmallest 0 none ((components.map
        (Component.left ⟨low, seqNo, kValueTypeForSeek⟩)).map List.head?)).map fun current =>
        { inner := ⟨components.map (Component.seek ⟨low, seqNo, kValueTypeForSeek⟩), current⟩
          savedKey := InternalKey.encode ⟨low, seqNo, kValueTypeForSeek⟩
          valid := true
          allPage := components.all Component.isPages } := by
  have streams : (components.map (Component.seek ⟨low, seqNo, kValueTypeForSeek⟩)).map
      Child.stream = components.map (Component.left ⟨low, seqNo, kValueTypeForSeek⟩) := by
    rw [List.map_map]
    exact List.map_congr_left fun component _ => component.seek_stream _
  rw [sought, MergingIterator.seek, MergingIterator.positioned, map_spot, streams]
  cases findSmallest 0 none ((components.map
      (Component.left ⟨low, seqNo, kValueTypeForSeek⟩)).map List.head?) with
  | error halt => rfl
  | ok current => rfl

theorem sought_stands (done : sought components seqNo low = .ok iterator) :
    iterator.Stands (components.map (Component.left ⟨low, seqNo, kValueTypeForSeek⟩)) ∧
      iterator.valid = true ∧ iterator.allPage = components.all Component.isPages := by
  rw [sought_eq] at done
  cases found : findSmallest 0 none ((components.map
      (Component.left ⟨low, seqNo, kValueTypeForSeek⟩)).map List.head?) with
  | error halt =>
      rw [found] at done
      cases done
  | ok current =>
      rw [found] at done
      cases done
      refine ⟨⟨?_, found⟩, rfl, rfl⟩
      rw [List.map_map]
      exact List.map_congr_left fun component _ => component.seek_stream _

theorem exists_sought (delivers : Delivers stream
      (components.map (Component.left ⟨low, seqNo, kValueTypeForSeek⟩))) :
    ∃ iterator, sought components seqNo low = .ok iterator ∧ iterator.Faces stream ∧
      iterator.valid = true ∧ iterator.allPage = components.all Component.isPages := by
  obtain ⟨current, found⟩ : ∃ current, findSmallest 0 none ((components.map
      (Component.left ⟨low, seqNo, kValueTypeForSeek⟩)).map List.head?) = .ok current := by
    cases stream with
    | nil => exact ⟨_, delivers⟩
    | cons spot stream => exact ⟨_, delivers.choose_spec.1⟩
  have done := sought_eq components seqNo low
  rw [found] at done
  obtain ⟨stands, valid, allPage⟩ := sought_stands done
  exact ⟨_, done, ⟨_, stands, delivers⟩, valid, allPage⟩

/-- The careful scan shows what the list scan shows of the merge. -/
theorem yields_seekBothEnds (delivers : Delivers stream
      (components.map (Component.left ⟨low, seqNo, kValueTypeForSeek⟩))) :
    Yields (nextUserEntry seqNo) (shown seqNo none stream.reduceOption)
      (seekBothEnds components seqNo low) := by
  obtain ⟨iterator, isSought, faces, -, -⟩ := exists_sought delivers
  rw [seekBothEnds, isSought]
  simp only [Except.bind]
  cases stream with
  | nil =>
      rw [faces.current_nil]
      exact ⟨_, rfl, rfl⟩
  | cons spot stream =>
      obtain ⟨place, here⟩ := faces.current_cons
      rw [here]
      exact yields_findNextUserEntry faces faces.rounds.ge false

/-- A careful scan that comes to its end has merged everything. -/
theorem delivers_of_yields (yields : Yields (nextUserEntry seqNo) result
      (seekBothEnds components seqNo low)) :
    ∃ stream, Delivers stream
      (components.map (Component.left ⟨low, seqNo, kValueTypeForSeek⟩)) := by
  by_contra never
  obtain ⟨after, done⟩ := yields.exists_ok
  rw [done] at yields
  rw [seekBothEnds] at done
  cases isSought : sought components seqNo low with
  | error halt =>
      rw [isSought] at done
      cases done
  | ok iterator =>
      obtain ⟨stands, -, -⟩ := sought_stands isSought
      rw [isSought] at done
      simp only [Except.bind] at done
      split at done
      · rename_i isNone
        exact never ⟨[], stream_nil_of_current stands isNone⟩
      · have enough : iterator.rounds = (components.map
            (Component.left ⟨low, seqNo, kValueTypeForSeek⟩)).flatten.length := by
          rw [rounds, List.flatMap_def, stands.children]
        obtain ⟨valid, lefts, afterStands, afterNever⟩ :=
          stands.findNextUserEntry never enough.ge done
        exact not_yields_of_not_delivers afterStands afterNever valid yields

theorem seekBothEnds_allPage (done : seekBothEnds components seqNo low = .ok after) :
    after.allPage = components.all Component.isPages := by
  rw [seekBothEnds] at done
  cases isSought : sought components seqNo low with
  | error halt =>
      rw [isSought] at done
      cases done
  | ok iterator =>
      obtain ⟨-, -, allPage⟩ := sought_stands isSought
      rw [isSought] at done
      simp only [Except.bind] at done
      split at done
      · cases done
        exact allPage
      · rw [findNextUserEntry_allPage done, allPage]

/-- With only live entries the scan starts on the first one. -/
theorem seekBothEnds_of_live {first : Entry} (delivers : Delivers (some first :: stream)
      (components.map (Component.left ⟨low, seqNo, kValueTypeForSeek⟩)))
    (kind : first.key.type = .kTypeValue) (seen : first.sequence ≤ seqNo) :
    ∃ iterator, seekBothEnds components seqNo low = .ok iterator ∧
      iterator.Faces (some first :: stream) ∧ iterator.valid = true ∧
      iterator.allPage = components.all Component.isPages := by
  obtain ⟨iterator, isSought, faces, -, allPage⟩ := exists_sought delivers
  obtain ⟨place, here⟩ := faces.current_cons
  refine ⟨{ iterator with savedKey := [], valid := true }, ?_, faces.congr rfl, rfl, allPage⟩
  rw [seekBothEnds, isSought]
  simp only [Except.bind, here]
  rw [faces.rounds, List.length_cons, findNextUserEntry, here]
  simp [seen, kind]

theorem Yields.unique {move : SortedTreeIterator → Except ScanHalt SortedTreeIterator}
    {start : Except ScanHalt SortedTreeIterator} {other : List (Slice × Slice)}
    (yields : Yields move result start) (also : Yields move other start) : result = other := by
  induction result generalizing start other with
  | nil =>
      obtain ⟨iterator, rfl, invalid⟩ := yields
      cases other with
      | nil => rfl
      | cons shown rest =>
          obtain ⟨same, isSame, isEntry, -⟩ := also
          cases isSame
          rw [(valid_of_entry isEntry).1] at invalid
          cases invalid
  | cons shown rest ih =>
      obtain ⟨iterator, rfl, isEntry, later⟩ := yields
      cases other with
      | nil =>
          obtain ⟨same, isSame, invalid⟩ := also
          cases isSame
          rw [(valid_of_entry isEntry).1] at invalid
          cases invalid
      | cons otherShown otherRest =>
          obtain ⟨same, isSame, otherEntry, otherLater⟩ := also
          cases isSame
          cases isEntry.symm.trans otherEntry
          rw [ih later otherLater]

end SeekBothEnds

end SortedTreeIterator

/-! ## What is left of the components -/

namespace Component

variable (target : InternalKey) (component : Component)

theorem left_sublist : (component.left target).reduceOption.Sublist component.entries := by
  cases component with
  | sorted entries =>
      rw [left, reduceOption_map_some]
      exact List.dropWhile_sublist _
  | pages chain =>
      cases chain with
      | nil => exact List.nil_sublist _
      | cons first others =>
          rw [left, leftOnPages]
          split
          · rw [List.reduceOption_append, reduceOption_map_some, reduceOption_flatMap_spots]
            exact (List.drop_sublist _ first).append_right _
          · exact List.nil_sublist _

/-- A component does not start with a page without entries. -/
theorem left_head : (component.left target).head? ≠ some none := by
  cases component with
  | sorted entries =>
      rw [left, List.head?_map]
      simp
  | pages chain =>
      cases chain with
      | nil => simp [left, leftOnPages]
      | cons first others =>
          rw [left, leftOnPages]
          split
          · rename_i inside
            rw [List.drop_eq_getElem_cons inside, List.map_cons, List.cons_append]
            exact Option.some_ne_none _ ∘ Option.some.inj
          · simp

/-- What is left of a sorted component is not below the target. -/
theorem le_of_left_sorted {target : InternalKey} {entries : List Entry} {entry : Entry}
    (sorted : entries.Pairwise (fun front behind => behind.before front = false))
    (member : some entry ∈ (Component.sorted entries).left target) :
    target.userKey ≤ entry.userKey := by
  let sought : Entry := ⟨target, []⟩
  have inFront : entries.Pairwise fun front behind =>
      behind.before sought = true → front.before sought = true := by
    refine sorted.imp fun {front behind} order dropped => ?_
    by_contra stays
    have kept := Entry.before_strictOrder.trans sought front behind
      (Bool.eq_false_iff.mpr stays) order
    rw [dropped] at kept
    cases kept
  obtain ⟨_, isLeft, same⟩ := List.mem_map.mp member
  cases same
  have kept := Lib.not_of_mem_dropWhile inFront isLeft
  rw [Entry.not_before_iff] at kept
  rcases kept with less | ⟨same, -⟩
  · exact less.le
  · exact same.le

/-- Without empty pages behind the first one no empty spot is left. -/
theorem none_not_mem_left (filled : ∀ pages, component = .pages pages → [] ∉ pages.tail) :
    none ∉ component.left target := by
  cases component with
  | sorted entries => simp [left]
  | pages chain =>
      cases chain with
      | nil => exact List.not_mem_nil
      | cons first others =>
          have othersFilled : [] ∉ others := filled _ rfl
          rw [left, leftOnPages]
          split
          · simp only [List.mem_append, List.mem_map, List.mem_flatMap, not_or]
            refine ⟨by simp, ?_⟩
            rintro ⟨page, isPage, empty⟩
            cases page with
            | nil => exact othersFilled isPage
            | cons entry entries => simp [spots_cons] at empty
          · exact List.not_mem_nil

end Component

namespace Streams

variable {streams : Streams} {seqNo : Nat} {low : Slice} {stream : List Spot}
  {result : List (Slice × Slice)}

theorem left_inKeyOrder : ∀ list ∈ streams.left seqNo low, InKeyOrder list := by
  intro list member
  obtain ⟨component, isComponent, rfl⟩ := List.mem_map.mp member
  exact (streams.sorted component isComponent).sublist (component.left_sublist _)

theorem not_clashes_left : ¬ Clashes ((streams.left seqNo low).map List.head?) := by
  rintro ⟨place, other, spot, -, isNone, -⟩
  obtain ⟨rest, here⟩ := exists_of_head isNone
  obtain ⟨component, -, isLeft⟩ := List.mem_map.mp (List.mem_of_getElem? here)
  exact component.left_head _ (by rw [isLeft]; rfl)

theorem mem_leftEntries {entry : Entry} : entry ∈ streams.leftEntries seqNo low ↔
    ∃ component ∈ streams.components,
      some entry ∈ component.left ⟨low, seqNo, kValueTypeForSeek⟩ := by
  rw [leftEntries, List.reduceOption_mem_iff, List.mem_flatten]
  simp [left]

theorem leftEntries_subset : streams.leftEntries seqNo low ⊆ streams.entries := by
  intro entry member
  obtain ⟨component, isComponent, inside⟩ := mem_leftEntries.mp member
  exact List.mem_flatMap.mpr ⟨component, isComponent,
    (component.left_sublist _).subset (List.reduceOption_mem_iff.mpr inside)⟩

theorem leftEntries_sublist :
    (streams.leftEntries seqNo low).Sublist streams.entries := by
  have each : ∀ components : List Component,
      ((components.map
        (Component.left ⟨low, seqNo, kValueTypeForSeek⟩)).flatten.reduceOption).Sublist
          (components.flatMap Component.entries) := by
    intro components
    induction components with
    | nil => exact List.Sublist.refl _
    | cons component components ih =>
        rw [List.map_cons, List.flatten_cons, List.reduceOption_append, List.flatMap_cons]
        exact (component.left_sublist _).append ih
  exact each streams.components

theorem leftEntries_named : ∀ front ∈ streams.leftEntries seqNo low,
    ∀ behind ∈ streams.leftEntries seqNo low, front.userKey = behind.userKey →
      front.sequence = behind.sequence → front = behind :=
  fun front isFront behind isBehind =>
    streams.named front (leftEntries_subset isFront) behind (leftEntries_subset isBehind)

section Delivered

variable (delivers : Delivers stream (streams.left seqNo low))

include delivers

theorem delivered_perm : stream.reduceOption.Perm (streams.leftEntries seqNo low) :=
  delivers.perm.filterMap id

theorem delivered_sorted : Sorted stream.reduceOption where
  ascending := delivers.ascending left_inKeyOrder
  named front isFront behind isBehind := leftEntries_named front
    ((delivered_perm delivers).subset isFront) behind ((delivered_perm delivers).subset isBehind)

theorem delivered_live (live : StoredOnceAndLive streams.entries seqNo) :
    StoredOnceAndLive stream.reduceOption seqNo := by
  have permuted := delivered_perm delivers
  refine ⟨?_, fun entry member => live.live entry
    (leftEntries_subset (permuted.subset member))⟩
  rw [(permuted.map Entry.userKey).nodup_iff]
  exact live.once.sublist (leftEntries_sublist.map _)

theorem shown_delivered :
    (shown seqNo none stream.reduceOption).Pairwise (fun front behind => front.1 < behind.1) ∧
      ∀ userKey value, (userKey, value) ∈ shown seqNo none stream.reduceOption ↔
        Visible (streams.leftEntries seqNo low) seqNo userKey value := by
  obtain ⟨ascending, member⟩ := @Sorted.shown_spec seqNo _ (delivered_sorted delivers)
    none (by simp)
  refine ⟨ascending, fun userKey value => ?_⟩
  rw [member, visible_congr fun entry _ => (delivered_perm delivers).mem_iff]
  simp

end Delivered

theorem delivered_first {spot : Spot} (delivers : Delivers (spot :: stream)
    (streams.left seqNo low)) : ∃ first, spot = some first := by
  obtain ⟨place, isFound, -⟩ := delivers
  obtain ⟨rest, here⟩ := (found_of_ok isFound).list
  obtain ⟨component, -, isLeft⟩ := List.mem_map.mp (List.mem_of_getElem? here)
  cases spot with
  | none => exact absurd (by rw [isLeft]; rfl) (component.left_head _)
  | some first => exact ⟨first, rfl⟩

/-- With live entries the scan starts on the first spot that is left. -/
theorem exists_faces (delivers : Delivers stream (streams.left seqNo low))
    (live : StoredOnceAndLive streams.entries seqNo) (left : stream ≠ []) :
    ∃ iterator, SortedTreeIterator.seekBothEnds streams.components seqNo low = .ok iterator ∧
      iterator.Faces stream ∧ iterator.valid = true ∧
      iterator.allPage = streams.components.all Component.isPages := by
  obtain ⟨spot, rest, rfl⟩ := List.exists_cons_of_ne_nil left
  obtain ⟨first, rfl⟩ := delivered_first delivers
  obtain ⟨kind, seen⟩ := (delivered_live delivers live).live first
    (List.reduceOption_mem_iff.mpr List.mem_cons_self)
  exact SortedTreeIterator.seekBothEnds_of_live delivers kind seen

theorem none_mem_iff (delivers : Delivers stream (streams.left seqNo low)) :
    none ∈ stream ↔ ∃ list ∈ streams.left seqNo low, none ∈ list := by
  rw [delivers.perm.mem_iff, List.mem_flatten]

/-- As long as no page without entries comes up, the short `Next` shows what the careful one
does. -/
theorem short_of_filled (delivers : Delivers stream (streams.left seqNo low))
    (live : StoredOnceAndLive streams.entries seqNo) (filled : none ∉ stream)
    (allPage : streams.components.all Component.isPages = true) :
    SortedTreeIterator.Yields (SortedTreeIterator.next seqNo)
      (shown seqNo none stream.reduceOption)
      (SortedTreeIterator.seekBothEnds streams.components seqNo low) := by
  obtain ⟨entries, rfl⟩ := exists_map_some filled
  cases entries with
  | nil => exact SortedTreeIterator.yields_seekBothEnds delivers
  | cons first entries =>
      have stored := delivered_live delivers live
      obtain ⟨iterator, done, faces, valid, isAllPage⟩ :=
        exists_faces delivers live (List.cons_ne_nil _ _)
      rw [done, (delivered_sorted delivers).shown_of_live stored none (by simp),
        reduceOption_map_some]
      exact SortedTreeIterator.yields_next_of_allPage faces (isAllPage.trans allPage) valid

/-- The short `Next` does not get past a page without entries. -/
theorem filled_of_short (delivers : Delivers stream (streams.left seqNo low))
    (live : StoredOnceAndLive streams.entries seqNo)
    (allPage : streams.components.all Component.isPages = true)
    (short : SortedTreeIterator.Yields (SortedTreeIterator.next seqNo) result
      (SortedTreeIterator.seekBothEnds streams.components seqNo low)) : none ∉ stream := by
  cases stream with
  | nil => exact List.not_mem_nil
  | cons spot stream =>
      obtain ⟨iterator, done, faces, valid, isAllPage⟩ :=
        exists_faces delivers live (List.cons_ne_nil _ _)
      rw [done] at short
      exact SortedTreeIterator.none_not_mem_of_yields_next faces (isAllPage.trans allPage)
        valid short

/-! ## What a scan shows of the components -/

theorem Shows.delivers (shows : streams.Shows seqNo low result) :
    ∃ stream, Delivers stream (streams.left seqNo low) :=
  SortedTreeIterator.delivers_of_yields shows.careful

/-- A scan shows the visible map of what is left. -/
theorem Shows.spec (shows : streams.Shows seqNo low result) :
    result.Pairwise (fun front behind => front.1 < behind.1) ∧
      ∀ userKey value, (userKey, value) ∈ result ↔
        Visible (streams.leftEntries seqNo low) seqNo userKey value := by
  obtain ⟨stream, delivers⟩ := shows.delivers
  have isShown : result = shown seqNo none stream.reduceOption :=
    shows.careful.unique (SortedTreeIterator.yields_seekBothEnds delivers)
  rw [isShown]
  exact shown_delivered delivers

/-- The scan comes to its end exactly if no page without entries gets in its way. -/
theorem exists_shows_iff : (∃ result, streams.Shows seqNo low result) ↔
    Undisturbed (streams.left seqNo low) ∧
      (streams.components.all Component.isPages = true →
        StoredOnceAndLive streams.entries seqNo →
          ∀ list ∈ streams.left seqNo low, none ∉ list) := by
  rw [← delivers_iff_undisturbed left_inKeyOrder not_clashes_left]
  constructor
  · rintro ⟨result, shows⟩
    obtain ⟨stream, delivers⟩ := shows.delivers
    refine ⟨⟨stream, delivers⟩, fun allPage live list isList member => ?_⟩
    have filled := filled_of_short delivers live allPage (shows.short fun _ => live)
    exact filled ((none_mem_iff delivers).mpr ⟨list, isList, member⟩)
  · rintro ⟨⟨stream, delivers⟩, filled⟩
    have careful := SortedTreeIterator.yields_seekBothEnds delivers
    refine ⟨_, careful, fun may => ?_⟩
    cases allPage : streams.components.all Component.isPages with
    | false =>
        refine (SortedTreeIterator.yields_next_iff fun iterator done => ?_).mpr careful
        exact (SortedTreeIterator.seekBothEnds_allPage done).trans allPage
    | true =>
        refine short_of_filled delivers (may allPage) (fun member => ?_) allPage
        obtain ⟨list, isList, inside⟩ := (none_mem_iff delivers).mp member
        exact filled allPage (may allPage) list isList inside

theorem undisturbed_of_filled {lefts : List (List Spot)} (filled : ∀ list ∈ lefts, none ∉ list) :
    Undisturbed lefts := by
  intro place front last behind here
  have member : none ∈ front ++ some last :: none :: behind := by simp
  exact absurd member (filled _ (List.mem_of_getElem? here))

/-- Without empty pages behind the first one every scan comes to its end. -/
theorem exists_shows (filled : ∀ pages, Component.pages pages ∈ streams.components →
      [] ∉ pages.tail) : ∃ result, streams.Shows seqNo low result := by
  have noneLeft : ∀ list ∈ streams.left seqNo low, none ∉ list := by
    intro list isList
    obtain ⟨component, isComponent, rfl⟩ := List.mem_map.mp isList
    exact component.none_not_mem_left _ fun pages same => filled pages (same ▸ isComponent)
  exact exists_shows_iff.mpr ⟨undisturbed_of_filled noneLeft, fun _ _ => noneLeft⟩

/-- Nothing matters if exactly the entries from the lower end on are left. -/
theorem Harmless.of_kept
    (kept : ∀ entry ∈ streams.entries, low ≤ entry.userKey →
      entry ∈ streams.leftEntries seqNo low)
    (inRange : ∀ entry ∈ streams.leftEntries seqNo low, low ≤ entry.userKey)
    (filled : ∀ list ∈ streams.left seqNo low, none ∉ list) : streams.Harmless seqNo low where
  passed entry newest above dropped := absurd (kept entry newest.stored above) dropped
  early entry newest below := absurd (inRange entry newest.stored) (not_le.mpr below)
  undisturbed := undisturbed_of_filled filled
  filled _ _ := filled

/-- A memtable with a deletion of the user key 3 and with the key 4, over two pages with the
keys 1 and 3 and with the key 5. -/
def memtableAndPages : Streams where
  components := [
    .sorted [⟨⟨[3], 7, .kTypeDeletion⟩, []⟩, ⟨⟨[4], 8, .kTypeValue⟩, [4]⟩],
    .pages [[⟨⟨[1], 1, .kTypeValue⟩, [1]⟩, ⟨⟨[3], 1, .kTypeValue⟩, [3]⟩],
      [⟨⟨[5], 1, .kTypeValue⟩, [5]⟩]]]
  sorted := by decide
  named := by decide
  added := by simp

/-- Two pages, with the user keys 1 and 3 and with the user key 5. -/
def onlyPages : Streams where
  components := [.pages [[⟨⟨[1], 1, .kTypeValue⟩, [1]⟩, ⟨⟨[3], 1, .kTypeValue⟩, [3]⟩],
    [⟨⟨[5], 1, .kTypeValue⟩, [5]⟩]]]
  sorted := by decide
  named := by decide
  added := by simp

end Streams

end AhaTree
