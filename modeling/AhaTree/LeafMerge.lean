import AhaTree.Compaction
import AhaTree.TreePage
import AhaTree.Lib.Newest

/-!
# Merging buffered files into leaf pages

An internal node may have children that are bare leaf pages, without a buffer of
their own.  `FlushFilesToChildren` merges the files of the node's buffer into
them one after the other.  A result of one page replaces the leaf page at once;
any other result waits until the pivots of the node are updated.  What
`std::abort`, a failed assertion or a division by zero ends is `none` here.
-/

namespace AhaTree

/-! ## Leaf pages -/

def pageSize : Nat := 8192

def itemIdSize : Nat := 4

/-- `sizeof(TreePageHeaderData)`. -/
def pgHdSize : Nat := 40

namespace Entry

def keySize (entry : Entry) : Nat := entry.key.encode.length

/-- What an entry takes of a leaf page, with both lengths and its offset. -/
def leafEntrySize (entry : Entry) : Nat :=
  entry.keySize + entry.value.length + 3 * itemIdSize

end Entry

def pageGetFreeSpace (page : List Entry) : Nat :=
  let space := pageSize - pgHdSize - (page.map Entry.leafEntrySize).sum
  if space < itemIdSize then 0 else space

def pageAppendLeafEntry (page : List Entry) (entry : Entry) : Option (List Entry) :=
  if pageGetFreeSpace page ≤ entry.leafEntrySize then none
  else some (page ++ [entry])

/-- What `WriteToPage` uses of a `PageSplitPolicy`. -/
structure PageSplitPolicy where
  State : Type
  init : Nat → Option State
  shouldAllocPage : Nat → State → Option (Bool × State)

/-- The fields of an `EvenSplitPolicy` after `Init`. -/
structure EvenSplit where
  curPageNum : Nat
  curPageCap : Nat
  pageNumMaxEntry : Nat
  deriving DecidableEq, Repr

/-- `EvenSplitPolicy`.  Its `sizeof(TreePageHeader)` is the size of a pointer. -/
def evenSplitPolicy (keySize valueSize : Nat) : PageSplitPolicy where
  State := EvenSplit
  init nonDup :=
    let pageCap := (pageSize - 8) / (keySize + valueSize + 3 * itemIdSize)
    let totalPageNum := nonDup / pageCap + if 0 < nonDup % pageCap then 1 else 0
    if pageCap = 0 ∨ totalPageNum = 0 then none
    else
      let curPageCap :=
        nonDup / totalPageNum + if 0 < nonDup % totalPageNum then 1 else 0
      let pageNumMaxEntry := nonDup - totalPageNum * (curPageCap - 1)
      let pageWithLesserEntry := totalPageNum - pageNumMaxEntry
      if curPageCap ≤ pageCap ∧ pageNumMaxEntry * curPageCap +
          pageWithLesserEntry * (curPageCap - 1) = nonDup then
        some ⟨0, curPageCap, pageNumMaxEntry⟩
      else none
  shouldAllocPage existingNum split :=
    if split.curPageCap ≤ existingNum then
      let curPageNum := split.curPageNum + 1
      some (true, { split with
        curPageNum := curPageNum
        curPageCap := if curPageNum = split.pageNumMaxEntry then split.curPageCap - 1
          else split.curPageCap })
    else some (false, split)

/-- The entries of a merged stream that `CountNonDuplicates` counts and
`WriteToPage` writes: the first version of each user key, if it is a value.  A
new user key sets the last sequence number back to the greatest one. -/
def nonDuplicates : Option Slice → Nat → List Entry → List Entry
  | _, _, [] => []
  | currentUserKey, lastSequence, entry :: stream =>
      let last :=
        if currentUserKey = some entry.userKey then lastSequence else kMaxSequenceNumber
      let rest := nonDuplicates (some entry.userKey) entry.sequence stream
      if last < kMaxSequenceNumber then rest
      else
        match entry.key.type with
        | .kTypeDeletion => rest
        | .kTypeValue => entry :: rest

def liveEntries (stream : List Entry) : List Entry :=
  nonDuplicates none kMaxSequenceNumber stream

/-- The size that stays once it is not zero. -/
def firstSize (sizes : List Nat) : Nat :=
  (sizes.find? (fun size => size != 0)).getD 0

/-- `CountNonDuplicates`: the count, the size of a key and that of a value. -/
def countNonDuplicates (stream : List Entry) : Nat × Nat × Nat :=
  ((liveEntries stream).length, firstSize (stream.map Entry.keySize),
    firstSize (stream.map (fun entry => entry.value.length)))

/-- The loop of `WriteToPage` on the entries it does not drop; the pages are
held with the newest one in front.  The first page is taken without asking. -/
def writeEntries (policy : PageSplitPolicy) :
    policy.State → List (List Entry) → List Entry → Option (List (List Entry))
  | _, pages, [] => some pages.reverse
  | state, [], entry :: entries =>
      (pageAppendLeafEntry [] entry).bind (fun page =>
        writeEntries policy state [page] entries)
  | state, page :: pages, entry :: entries =>
      (policy.shouldAllocPage page.length state).bind (fun answer =>
        if answer.1 then
          (pageAppendLeafEntry [] entry).bind (fun fresh =>
            writeEntries policy answer.2 (fresh :: page :: pages) entries)
        else
          (pageAppendLeafEntry page entry).bind (fun longer =>
            writeEntries policy answer.2 (longer :: pages) entries))

/-- `WriteToPage`: the entries of each page of the result, whose pivots are the
user keys of the first ones.  These differ, so there is one page for each pivot. -/
def writeToPage (getPageSplitPolicy : Nat → Nat → PageSplitPolicy)
    (stream : List Entry) : Option (List (List Entry)) :=
  let (nonDup, keySize, valSize) := countNonDuplicates stream
  if keySize = 0 ∨ valSize = 0 then none
  else
    let policy := getPageSplitPolicy keySize valSize
    (policy.init nonDup).bind (fun state =>
      writeEntries policy state [] (liveEntries stream))

/-! ## The buffer of a node -/

namespace Lsmt

/-- The copy constructor: a fresh decision, and the files and compaction pointers
down to the bottom level. -/
def copy (lsmt : Lsmt) : Lsmt where
  files := fun level =>
    if level < levelCount lsmt.files then lsmt.files level else []
  compactPointer := fun level =>
    if level < levelCount lsmt.files then lsmt.compactPointer level else none
  flushPointer := fun _ => none
  compactLevel := lsmt.compactLevel
  compactionScore := -1
  fileNumToCompact := 0
  fileToCompactLevel := none
  obsoleteFiles := lsmt.obsoleteFiles
  allowedSeeks := lsmt.allowedSeeks
  tables := lsmt.tables
  fileId := lsmt.fileId

def finalizeRetrievalAndDelete (level : Nat) (retrieved : List FileMetaData)
    (lsmt : Lsmt) : Lsmt :=
  let left := lsmt.finalizeRetrieval level retrieved
  { left with
    obsoleteFiles := left.obsoleteFiles ++ retrieved.map FileMetaData.number }

/-- `RemoveFiles`. -/
def removeFiles (dead : List Nat) (lsmt : Lsmt) : Lsmt :=
  { lsmt with
    tables := fun number => if dead.contains number then [] else lsmt.tables number }

end Lsmt

/-- An internal node: the items of its page, its installed buffer, the buffer
that is being prepared, and the leaf pages of the buffer manager. -/
structure Node where
  items : IndexItems
  nodeLsmt : Lsmt
  lsmt4compact : Option Lsmt
  pages : PageId → List Entry

namespace Node

def bufferFinalizeMergeLeaf (level : Nat) (files : List FileMetaData) (node : Node) :
    Node :=
  let pending := node.lsmt4compact.getD node.nodeLsmt.copy
  { node with lsmt4compact := some (pending.finalizeRetrievalAndDelete level files) }

/-- `GetObsoleteFilesAndInstallNewBuffer`, with the dead files. -/
def getObsoleteFilesAndInstallNewBuffer (node : Node) : List Nat × Node :=
  match node.lsmt4compact with
  | none => ([], node)
  | some pending =>
      (pending.obsoleteFiles, { node with
        nodeLsmt := { pending with obsoleteFiles := [] }
        lsmt4compact := none })

end Node

/-! ## The merge with one leaf page -/

def pageGetOffsetByChild (items : IndexItems) (child : PageId) : Option Nat :=
  items.findIdx? (fun item => item.2 == child)

/-- The test of `FlushAndMergeSmallLeaf` whether a file belongs to the child at
the offset. -/
def belongsToChild (items : IndexItems) (offset : Nat) (file : FileMetaData) : Bool :=
  let lastOne := decide (offset + 1 = items.length)
  (Slice.compare file.start (pageReadPivotAtOffset (pivots items) offset)).isGE &&
    (lastOne || (Slice.compare file.limit
      (pageReadPivotAtOffset (pivots items) (offset + 1))).isLT)

/-- What other threads may see when the lock on the node is eased, and then again
when the dead files are gone. -/
structure Moment where
  node : Node
  removed : List Nat

/-- What `FlushAndMergeSmallLeaf` leaves: the pages of its result, the moments at
which the node was visible, and the node. -/
structure LeafResult where
  newKids : List (List Entry)
  moments : List Moment
  node : Node

namespace Node

/-- The merging iterator over the files and the leaf page. -/
def mergedLeaf (flushed : List FileMetaData) (child : PageId) (node : Node) :
    List Entry :=
  let streams := flushed.map (fun file => node.nodeLsmt.tables file.number) ++
    if node.pages child = [] then [] else [node.pages child]
  Lib.merge Entry.before streams.flatten.length streams

/-- The step under the exclusive lock, and the removal after it. -/
def installLeaf (child : PageId) (page : List Entry) (node : Node) :
    List Moment × Node :=
  let written := { node with pages := Function.update node.pages child page }
  let (dead, installed) := written.getObsoleteFilesAndInstallNewBuffer
  let removed := { installed with nodeLsmt := installed.nodeLsmt.removeFiles dead }
  ([⟨installed, []⟩, ⟨removed, dead⟩], removed)

def flushAndMergeSmallLeaf (getPageSplitPolicy : Nat → Nat → PageSplitPolicy)
    (levelOfFiles : Nat) (files : List FileMetaData) (child : PageId) (node : Node) :
    Option LeafResult :=
  (pageGetOffsetByChild node.items child).bind (fun offset =>
    let flushed := files.filter (belongsToChild node.items offset)
    if flushed = [] then some ⟨[], [], node⟩
    else
      (writeToPage getPageSplitPolicy (node.mergedLeaf flushed child)).map (fun result =>
        let finalized := node.bufferFinalizeMergeLeaf levelOfFiles flushed
        match result with
        | [page] =>
            let (moments, installed) := finalized.installLeaf child page
            ⟨[], moments, installed⟩
        | pages => ⟨pages, [], finalized⟩))

end Node

/-! ## The loop over the page children -/

/-- What the loop of `FlushFilesToChildren` carries along. -/
structure FlushLoop where
  node : Node
  oldPivots : List (Slice × PageId)
  newPivots : List (List (List Entry))
  smallLeafOp : Bool

/-- The end of a round: new pages are kept for the update of the pivots. -/
def FlushLoop.add (child : Slice × PageId) (result : LeafResult) (loop : FlushLoop) :
    FlushLoop :=
  let moved := { loop with
    node := result.node
    smallLeafOp := loop.smallLeafOp || decide (1 < result.newKids.length) }
  if result.newKids = [] then moved
  else { moved with
    oldPivots := moved.oldPivots ++ [child]
    newPivots := moved.newPivots ++ [result.newKids] }

/-- The loop over the page children in the order of their pivots, with the
moments at which the node was visible; it ends early if the process does.  A
policy may choose at random, so each child has its own. -/
def mergeLeaves (getPageSplitPolicy : PageId → Nat → Nat → PageSplitPolicy)
    (levelOfFiles : Nat) (files : List FileMetaData) :
    List (Slice × PageId) → FlushLoop → List Moment × Option FlushLoop
  | [], loop => ([], some loop)
  | child :: children, loop =>
      match loop.node.flushAndMergeSmallLeaf (getPageSplitPolicy child.2)
          levelOfFiles files child.2 with
      | none => ([], none)
      | some result =>
          let later := mergeLeaves getPageSplitPolicy levelOfFiles files children
            (loop.add child result)
          (result.moments ++ later.1, later.2)

/-! ## Writing pages -/

theorem pageAppendLeafEntry_eq {page longer : List Entry} {entry : Entry}
    (appended : pageAppendLeafEntry page entry = some longer) :
    longer = page ++ [entry] := by
  rw [pageAppendLeafEntry] at appended
  split at appended
  · cases appended
  · exact (Option.some.inj appended).symm

theorem writeEntries_flatten {policy : PageSplitPolicy} {state : policy.State}
    {pages result : List (List Entry)} {entries : List Entry}
    (written : writeEntries policy state pages entries = some result) :
    result.flatten = pages.reverse.flatten ++ entries := by
  induction entries generalizing state pages with
  | nil =>
      cases pages <;> cases written <;> simp
  | cons entry entries ih =>
      cases pages with
      | nil =>
          rw [writeEntries] at written
          obtain ⟨page, appended, later⟩ := Option.bind_eq_some_iff.mp written
          rw [ih later, pageAppendLeafEntry_eq appended]
          simp
      | cons page pages =>
          rw [writeEntries] at written
          obtain ⟨⟨allocates, next⟩, -, later⟩ := Option.bind_eq_some_iff.mp written
          simp only at later
          split at later
          · obtain ⟨fresh, appended, rest⟩ := Option.bind_eq_some_iff.mp later
            rw [ih rest, pageAppendLeafEntry_eq appended]
            simp
          · obtain ⟨longer, appended, rest⟩ := Option.bind_eq_some_iff.mp later
            rw [ih rest, pageAppendLeafEntry_eq appended]
            simp

/-- The pages hold what the merge does not drop. -/
theorem writeToPage_flatten {getPageSplitPolicy : Nat → Nat → PageSplitPolicy}
    {stream : List Entry} {pages : List (List Entry)}
    (written : writeToPage getPageSplitPolicy stream = some pages) :
    pages.flatten = liveEntries stream := by
  simp only [writeToPage] at written
  split at written
  · cases written
  · obtain ⟨state, -, later⟩ := Option.bind_eq_some_iff.mp written
    simpa using writeEntries_flatten later

/-! ## What the merge keeps -/

/-- The entry is a value and no deletion. -/
def Entry.IsValue (entry : Entry) : Prop := entry.key.type = .kTypeValue

/-- The stored versions of one user key. -/
def versions (entries : List Entry) (key : Slice) : Set Entry :=
  {entry | entry ∈ entries ∧ entry.userKey = key}

theorem versions_append (front behind : List Entry) (key : Slice) :
    versions (front ++ behind) key = versions front key ∪ versions behind key := by
  ext entry
  simp [versions, or_and_right]

theorem versions_finite (entries : List Entry) (key : Slice) :
    (versions entries key).Finite :=
  (List.finite_toSet entries).subset (fun _ member => member.1)

section NonDuplicates

variable {first entry : Entry} {stream : List Entry}

theorem versions_cons_of_ne (different : first.userKey ≠ entry.userKey) :
    versions (first :: stream) entry.userKey = versions stream entry.userKey := by
  ext other
  constructor
  · rintro ⟨member, same⟩
    rcases List.mem_cons.mp member with rfl | later
    · exact absurd same different
    · exact ⟨later, same⟩
  · rintro ⟨later, same⟩
    exact ⟨List.mem_cons_of_mem _ later, same⟩

/-- The first entry of a sorted list decides about its user key. -/
theorem Sorted.shows_head_iff (sorted : Sorted (first :: stream))
    (same : entry.userKey = first.userKey) :
    Lib.Shows Entry.sequence Entry.IsValue
        (versions (first :: stream) entry.userKey) entry ↔
      entry = first ∧ first.IsValue := by
  constructor
  · rintro ⟨⟨member, greatest⟩, living⟩
    have below := sorted.head_newest member.1 same
    have above := greatest first ⟨List.mem_cons_self, same.symm⟩
    obtain rfl := sorted.named entry member.1 first List.mem_cons_self same
      (Nat.le_antisymm below above)
    exact ⟨rfl, living⟩
  · rintro ⟨rfl, living⟩
    refine ⟨⟨⟨List.mem_cons_self, rfl⟩, ?_⟩, living⟩
    rintro other ⟨member, sameKey⟩
    exact sorted.head_newest member sameKey

/-- The loop keeps what a sorted list shows, except for the user key it has
already passed. -/
theorem Sorted.mem_nonDuplicates_iff (sorted : Sorted stream)
    (bounded : ∀ entry ∈ stream, entry.sequence < kMaxSequenceNumber)
    {current : Option Slice} {last : Nat}
    (reached : ∀ hidden ∈ current, ∀ entry ∈ stream, hidden ≤ entry.userKey)
    (passed : current ≠ none → last < kMaxSequenceNumber) :
    entry ∈ nonDuplicates current last stream ↔
      current ≠ some entry.userKey ∧
        Lib.Shows Entry.sequence Entry.IsValue (versions stream entry.userKey) entry := by
  induction stream generalizing current last with
  | nil =>
      simp only [nonDuplicates, List.not_mem_nil, false_iff, not_and]
      rintro - shows
      exact List.not_mem_nil shows.member.1
  | cons first stream ih =>
      have rest : entry ∈ nonDuplicates (some first.userKey) first.sequence stream ↔
          first.userKey ≠ entry.userKey ∧ Lib.Shows Entry.sequence Entry.IsValue
            (versions stream entry.userKey) entry := by
        have later := @ih sorted.tail
          (fun other member => bounded other (List.mem_cons_of_mem _ member))
          (some first.userKey) first.sequence (by
            rintro _ ⟨⟩ other member
            exact sorted.head_le (List.mem_cons_of_mem _ member))
          (fun _ => bounded first List.mem_cons_self)
        rw [later, ne_eq, Option.some.injEq]
      by_cases hidden : current = some first.userKey
      · have known : last < kMaxSequenceNumber := passed (by simp [hidden])
        have skipped : nonDuplicates current last (first :: stream) =
            nonDuplicates (some first.userKey) first.sequence stream := by
          simp [nonDuplicates, hidden, known]
        rw [skipped, rest, hidden, ne_eq, ne_eq, Option.some.injEq]
        refine and_congr_right (fun different => ?_)
        rw [versions_cons_of_ne different]
      · -- the first version of its user key: only its type counts
        have other : first.userKey ≠ entry.userKey →
            (Lib.Shows Entry.sequence Entry.IsValue
              (versions stream entry.userKey) entry ↔
            current ≠ some entry.userKey ∧ Lib.Shows Entry.sequence Entry.IsValue
              (versions (first :: stream) entry.userKey) entry) := by
          intro different
          rw [versions_cons_of_ne different]
          refine ⟨fun shows => ⟨?_, shows⟩, And.right⟩
          intro same
          have above := sorted.head_le (List.mem_cons_of_mem _ shows.member.1)
          have below := reached entry.userKey same first List.mem_cons_self
          exact different (le_antisymm above below)
        have dropped : first.key.type = .kTypeDeletion →
            nonDuplicates current last (first :: stream) =
              nonDuplicates (some first.userKey) first.sequence stream := by
          intro kind
          simp [nonDuplicates, hidden, kind]
        have written : first.key.type = .kTypeValue →
            nonDuplicates current last (first :: stream) =
              first :: nonDuplicates (some first.userKey) first.sequence stream := by
          intro kind
          simp [nonDuplicates, hidden, kind]
        by_cases same : entry.userKey = first.userKey
        · have notLater : entry ∉
              nonDuplicates (some first.userKey) first.sequence stream := by
            rw [rest]
            exact fun claim => claim.1 same.symm
          rw [sorted.shows_head_iff same, same]
          cases kind : first.key.type with
          | kTypeDeletion => simp [dropped kind, notLater, Entry.IsValue, kind]
          | kTypeValue => simp [written kind, notLater, Entry.IsValue, kind, hidden]
        · have different : first.userKey ≠ entry.userKey := fun equal => same equal.symm
          have notFirst : entry ≠ first := fun equal => same (congrArg _ equal)
          rw [← other different]
          cases kind : first.key.type with
          | kTypeDeletion => simp [dropped kind, rest, different]
          | kTypeValue => simp [written kind, rest, different, notFirst]

theorem Sorted.mem_liveEntries_iff (sorted : Sorted stream)
    (bounded : ∀ entry ∈ stream, entry.sequence < kMaxSequenceNumber) :
    entry ∈ liveEntries stream ↔
      Lib.Shows Entry.sequence Entry.IsValue (versions stream entry.userKey) entry := by
  rw [liveEntries, sorted.mem_nonDuplicates_iff bounded (by simp) (by simp)]
  simp

/-- The newest values of a sorted stream are its live entries. -/
theorem Sorted.mem_liveEntries (sorted : Sorted stream)
    (bounded : ∀ entry ∈ stream, entry.sequence < kMaxSequenceNumber) (entry : Entry) :
    entry ∈ liveEntries stream ↔ entry ∈ stream ∧ entry.IsValue ∧
      ∀ other ∈ stream, other.userKey = entry.userKey → other.sequence ≤ entry.sequence := by
  rw [sorted.mem_liveEntries_iff bounded]
  constructor
  · rintro ⟨⟨⟨member, -⟩, newest⟩, isValue⟩
    exact ⟨member, isValue, fun other isOther sameKey => newest other ⟨isOther, sameKey⟩⟩
  · rintro ⟨member, isValue, newest⟩
    exact ⟨⟨⟨member, rfl⟩, fun other isOther => newest other isOther.1 isOther.2⟩, isValue⟩

end NonDuplicates

end AhaTree
