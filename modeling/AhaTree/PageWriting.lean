import AhaTree.PageFit
import AhaTree.TreeCompaction
import AhaTree.Lib.Ascending

/-!
# The two passes of page writing

`CountNonDuplicates` and `WriteToPage` go through a merged stream one after the
other and decide on their own which entries to drop.  Here both are loops over
the stream, with the ids that the buffer manager gives to the pages and the map
from the first user key of a page to its id.
-/

namespace AhaTree

/-! ## The loops -/

/-- What both loops know of the entries before. -/
structure KeyPass where
  currentUserKey : Option Slice
  lastSequenceForKey : Nat

namespace KeyPass

def start : KeyPass := ⟨none, kMaxSequenceNumber⟩

/-- The lines of both loops that decide whether an entry is dropped. -/
def next (entry : Entry) (pass : KeyPass) : Bool × KeyPass :=
  let last :=
    if pass.currentUserKey = some entry.userKey then pass.lastSequenceForKey
    else kMaxSequenceNumber
  (decide (last < kMaxSequenceNumber) || entry.key.type == .kTypeDeletion,
    ⟨some entry.userKey, entry.sequence⟩)

end KeyPass

/-- The variables of `CountNonDuplicates`. -/
structure EntryCount where
  pass : KeyPass
  nonDup : Nat
  keySize : Nat
  valSize : Nat

def EntryCount.next (count : EntryCount) (entry : Entry) : EntryCount :=
  let (drop, pass) := count.pass.next entry
  { pass := pass
    nonDup := if drop then count.nonDup else count.nonDup + 1
    keySize := if count.keySize = 0 then entry.keySize else count.keySize
    valSize := if count.valSize = 0 then entry.value.length else count.valSize }

/-- The leaf pages of the buffer manager, with the id that `Allocate` gives out
next; 0 is no page. -/
structure PagePool where
  newId : Nat
  pages : Nat → List Entry
  positive : 0 < newId

def PagePool.allocate (pool : PagePool) : PagePool where
  newId := pool.newId + 1
  pages := Function.update pool.pages pool.newId []
  positive := Nat.succ_pos _

def PagePool.write (id : Nat) (page : List Entry) (pool : PagePool) : PagePool :=
  { pool with pages := Function.update pool.pages id page }

/-- The variables of `WriteToPage`; no page has been taken as long as `newPgId` is
zero.  The map of the result is a list in ascending order. -/
structure PageWriter (policy : PageSplitPolicy) where
  pass : KeyPass
  state : policy.State
  newPgId : Nat
  pageItem : Nat
  result : List (Slice × Nat)
  pool : PagePool

namespace PageWriter

variable {policy : PageSplitPolicy}

/-- A new page under the user key of its first entry. -/
def takePage (userKey : Slice) (writer : PageWriter policy) : PageWriter policy :=
  { writer with
    newPgId := writer.pool.newId
    pageItem := 0
    result := Lib.place userKey writer.pool.newId writer.result
    pool := writer.pool.allocate }

/-- The open page has one entry more. -/
def lengthen (writer : PageWriter policy) (page : List Entry) : PageWriter policy :=
  { writer with
    pageItem := writer.pageItem + 1
    pool := writer.pool.write writer.newPgId page }

/-- `PageAppendLeafEntry` on the open page. -/
def append (entry : Entry) (writer : PageWriter policy) : Option (PageWriter policy) :=
  (pageAppendLeafEntry (writer.pool.pages writer.newPgId) entry).map writer.lengthen

/-- An entry that is not dropped. -/
def write (entry : Entry) (writer : PageWriter policy) : Option (PageWriter policy) :=
  if writer.newPgId = 0 then (writer.takePage entry.userKey).append entry
  else
    (policy.shouldAllocPage writer.pageItem writer.state).bind (fun answer =>
      let asked := { writer with state := answer.2 }
      if answer.1 then (asked.takePage entry.userKey).append entry else asked.append entry)

def next (writer : PageWriter policy) (entry : Entry) : Option (PageWriter policy) :=
  let (drop, pass) := writer.pass.next entry
  let passed := { writer with pass := pass }
  if drop then some passed else passed.write entry

end PageWriter

namespace Passes

/-- `CountNonDuplicates`: the count, the size of a key and that of a value. -/
def countNonDuplicates (stream : List Entry) : Nat × Nat × Nat :=
  let count := stream.foldl EntryCount.next ⟨.start, 0, 0, 0⟩
  (count.nonDup, count.keySize, count.valSize)

/-- `WriteToPage`, with the buffer manager. -/
def writeToPage (getPageSplitPolicy : Nat → Nat → PageSplitPolicy) (stream : List Entry)
    (pool : PagePool) : Option (List (Slice × Nat) × PagePool) :=
  let (nonDup, keySize, valSize) := countNonDuplicates stream
  if keySize = 0 ∨ valSize = 0 then none
  else
    let policy := getPageSplitPolicy keySize valSize
    (policy.init nonDup).bind (fun state =>
      (stream.foldlM PageWriter.next ⟨.start, state, 0, 0, [], pool⟩).map (fun writer =>
        (writer.result, writer.pool)))

end Passes

/-! ## The count -/

section

variable {stream : List Entry}

theorem nonDuplicates_cons (pass : KeyPass) (entry : Entry) (stream : List Entry) :
    nonDuplicates pass.currentUserKey pass.lastSequenceForKey (entry :: stream) =
      if (pass.next entry).1 then
        nonDuplicates (some entry.userKey) entry.sequence stream
      else entry :: nonDuplicates (some entry.userKey) entry.sequence stream := by
  by_cases hidden : (if pass.currentUserKey = some entry.userKey then
      pass.lastSequenceForKey else kMaxSequenceNumber) < kMaxSequenceNumber
  · have dropped : (pass.next entry).1 = true := by
      rw [KeyPass.next, decide_eq_true hidden, Bool.true_or]
    rw [nonDuplicates, if_pos hidden, dropped, if_pos rfl]
  · have kept : (pass.next entry).1 = (entry.key.type == .kTypeDeletion) := by
      rw [KeyPass.next, decide_eq_false hidden, Bool.false_or]
    rw [nonDuplicates, if_neg hidden, kept]
    cases entry.key.type <;> rfl

theorem foldl_nonDup (count : EntryCount) :
    (stream.foldl EntryCount.next count).nonDup = count.nonDup +
      (nonDuplicates count.pass.currentUserKey count.pass.lastSequenceForKey stream).length := by
  induction stream generalizing count with
  | nil => rfl
  | cons entry stream ih =>
      rw [List.foldl_cons, ih, nonDuplicates_cons]
      have userKey : (count.next entry).pass.currentUserKey = some entry.userKey := rfl
      have sequence : (count.next entry).pass.lastSequenceForKey = entry.sequence := rfl
      rw [userKey, sequence]
      cases dropped : (count.pass.next entry).1 with
      | true =>
          have kept : (count.next entry).nonDup = count.nonDup := if_pos dropped
          rw [kept, if_pos rfl]
      | false =>
          have counted : (count.next entry).nonDup = count.nonDup + 1 :=
            if_neg (ne_true_of_eq_false dropped)
          rw [counted, if_neg Bool.false_ne_true, List.length_cons]
          omega

/-- A size that is set as long as it is zero. -/
theorem foldl_firstSize (size : Entry → Nat) (read : EntryCount → Nat)
    (step : ∀ count entry, read (EntryCount.next count entry) =
      if read count = 0 then size entry else read count) (count : EntryCount) :
    read (stream.foldl EntryCount.next count) =
      if read count = 0 then firstSize (stream.map size) else read count := by
  induction stream generalizing count with
  | nil =>
      rw [List.foldl_nil]
      split
      · assumption
      · rfl
  | cons entry stream ih =>
      rw [List.foldl_cons, ih, step]
      by_cases unset : read count = 0
      · rw [if_pos unset, if_pos unset]
        by_cases empty : size entry = 0
        · simp [firstSize, empty]
        · simp [firstSize, empty]
      · rw [if_neg unset, if_neg unset, if_neg unset]

/-- The first pass counts what the merge keeps. -/
theorem Passes.countNonDuplicates_eq (stream : List Entry) :
    Passes.countNonDuplicates stream = AhaTree.countNonDuplicates stream := by
  have keys := @foldl_firstSize stream Entry.keySize EntryCount.keySize (fun _ _ => rfl)
    ⟨.start, 0, 0, 0⟩
  have values := @foldl_firstSize stream (fun entry => entry.value.length)
    EntryCount.valSize (fun _ _ => rfl) ⟨.start, 0, 0, 0⟩
  have count := @foldl_nonDup stream ⟨.start, 0, 0, 0⟩
  rw [if_pos rfl] at keys values
  rw [Nat.zero_add] at count
  simp only [Passes.countNonDuplicates, keys, values, count]
  rfl

end

/-! ## The pages that are written -/

/-- The user key of the first entry of a page. -/
def firstUserKey (page : List Entry) : Slice := (page.head?.map Entry.userKey).getD []

/-- The writer has filled these pages, of which the first one is open; all others
are as they were in `start`. -/
structure Represents {policy : PageSplitPolicy} (start : PagePool)
    (writer : PageWriter policy) (pages : List (List Entry)) : Prop where
  newId : writer.pool.newId = start.newId + pages.length
  none : pages = [] → writer.newPgId = 0
  opened : pages ≠ [] → writer.newPgId + 1 = writer.pool.newId
  item : ∀ page ∈ pages.head?, writer.pageItem = page.length
  filled : ∀ page ∈ pages, page ≠ []
  contents : pages.reverse =
    (List.range' start.newId pages.length).map writer.pool.pages
  result : writer.result = (List.range' start.newId pages.length).map
    (fun id => (firstUserKey (writer.pool.pages id), id))
  frame : ∀ id < start.newId, writer.pool.pages id = start.pages id

section

variable {policy : PageSplitPolicy} {start : PagePool} {writer after : PageWriter policy}
  {page : List Entry} {pages : List (List Entry)} {entry : Entry}

theorem represents_nil (pass : KeyPass) (state : policy.State) (pool : PagePool) :
    Represents pool (⟨pass, state, 0, 0, [], pool⟩ : PageWriter policy) [] where
  newId := rfl
  none _ := rfl
  opened filled := absurd rfl filled
  item _ member := by cases member
  filled _ member := by cases member
  contents := rfl
  result := rfl
  frame _ _ := rfl

/-- The pages do not depend on what the policy and the drop logic remember. -/
theorem Represents.of_same {other : PageWriter policy} (represents : Represents start writer pages)
    (newPgId : other.newPgId = writer.newPgId) (pageItem : other.pageItem = writer.pageItem)
    (result : other.result = writer.result) (pool : other.pool = writer.pool) :
    Represents start other pages where
  newId := by rw [pool]; exact represents.newId
  none empty := newPgId.trans (represents.none empty)
  opened filled := by rw [newPgId, pool]; exact represents.opened filled
  item page member := pageItem.trans (represents.item page member)
  filled := represents.filled
  contents := by rw [pool]; exact represents.contents
  result := by rw [result, pool]; exact represents.result
  frame := by rw [pool]; exact represents.frame

/-- A write to the last of a row of pages. -/
theorem map_range'_update {α : Type} (base count : Nat) (contents : Nat → List Entry)
    (page : List Entry) (read : List Entry → Nat → α) :
    (List.range' base (count + 1)).map (fun id =>
        read (Function.update contents (base + count) page id) id) =
      (List.range' base count).map (fun id => read (contents id) id) ++
        [read page (base + count)] := by
  rw [List.range'_concat, List.map_append, List.map_singleton, Nat.one_mul,
    Function.update_self]
  congr 1
  refine List.map_congr_left ?_
  intro id member
  rw [Function.update_of_ne (by have := List.mem_range'_1.mp member; omega)]

theorem Represents.length_pos (represents : Represents start writer (page :: pages)) :
    writer.newPgId = start.newId + pages.length := by
  have isOpen := represents.opened (List.cons_ne_nil _ _)
  have newId := represents.newId
  rw [List.length_cons] at newId
  omega

/-- The open page is the one of the current id. -/
theorem Represents.openPage (represents : Represents start writer (page :: pages)) :
    writer.pool.pages writer.newPgId = page ∧
      pages.reverse = (List.range' start.newId pages.length).map writer.pool.pages ∧
      writer.result = (List.range' start.newId pages.length).map
        (fun id => (firstUserKey (writer.pool.pages id), id)) ++
          [(firstUserKey page, writer.newPgId)] := by
  have contents := represents.contents
  have result := represents.result
  rw [List.reverse_cons, List.length_cons, List.range'_concat, List.map_append,
    List.map_singleton, Nat.one_mul, ← represents.length_pos] at contents
  rw [List.length_cons, List.range'_concat, List.map_append, List.map_singleton, Nat.one_mul,
    ← represents.length_pos] at result
  obtain ⟨closed, last⟩ := List.append_inj' contents rfl
  have isPage := List.singleton_inj.mp last
  refine ⟨isPage.symm, closed, ?_⟩
  rw [result, ← isPage]

/-- The open page takes an entry. -/
theorem Represents.grow (represents : Represents start writer (page :: pages)) :
    Represents start (writer.lengthen (page ++ [entry])) ((page ++ [entry]) :: pages) := by
  have isId := represents.length_pos
  obtain ⟨isPage, closed, result⟩ := represents.openPage
  have isFilled : page ≠ [] := represents.filled page List.mem_cons_self
  have written : (writer.lengthen (page ++ [entry])).pool.pages =
      Function.update writer.pool.pages (start.newId + pages.length) (page ++ [entry]) := by
    rw [← isId]
    rfl
  refine ⟨represents.newId, fun empty => absurd empty (List.cons_ne_nil _ _),
    fun _ => represents.opened (List.cons_ne_nil _ _), ?_, ?_, ?_, ?_, ?_⟩
  · intro other member
    obtain rfl := Option.mem_some_iff.mp member
    have before : writer.pageItem = page.length := represents.item page rfl
    rw [List.length_append, List.length_singleton, ← before]
    rfl
  · intro other member
    rcases List.mem_cons.mp member with rfl | older
    · simp
    · exact represents.filled other (List.mem_cons_of_mem _ older)
  · rw [List.reverse_cons, closed, written, List.length_cons,
      map_range'_update start.newId pages.length _ _ (fun page _ => page)]
  · have sameKey : firstUserKey (page ++ [entry]) = firstUserKey page := by
      cases page with
      | nil => exact absurd rfl isFilled
      | cons first rest => rfl
    rw [written, List.length_cons,
      map_range'_update start.newId pages.length _ _ (fun page id => (firstUserKey page, id)),
      sameKey, ← isId]
    exact result
  · intro id old
    rw [written, Function.update_of_ne (by omega)]
    exact represents.frame id old

/-- A fresh page takes an entry behind all the others. -/
theorem Represents.take (represents : Represents start writer pages)
    (behind : ∀ page ∈ pages, firstUserKey page < entry.userKey) :
    Represents start ((writer.takePage entry.userKey).lengthen [entry]) ([entry] :: pages) := by
  have newId := represents.newId
  have written : ((writer.takePage entry.userKey).lengthen [entry]).pool.pages =
      Function.update writer.pool.pages (start.newId + pages.length) [entry] := by
    rw [← newId]
    exact Function.update_idem _ _ _
  have result : ((writer.takePage entry.userKey).lengthen [entry]).result =
      writer.result ++ [(entry.userKey, writer.pool.newId)] := by
    refine Lib.place_last ?_
    intro item member
    rw [represents.result] at member
    obtain ⟨id, isId, rfl⟩ := List.mem_map.mp member
    refine behind _ (List.mem_reverse.mp ?_)
    rw [represents.contents]
    exact List.mem_map_of_mem isId
  refine ⟨?_, fun empty => absurd empty (List.cons_ne_nil _ _), fun _ => rfl, ?_, ?_, ?_, ?_, ?_⟩
  · rw [List.length_cons, ← Nat.add_assoc, ← newId]
    rfl
  · intro other member
    obtain rfl := Option.mem_some_iff.mp member
    rfl
  · intro other member
    rcases List.mem_cons.mp member with rfl | older
    · exact List.cons_ne_nil _ _
    · exact represents.filled other older
  · rw [List.reverse_cons, represents.contents, written, List.length_cons,
      map_range'_update start.newId pages.length _ _ (fun page _ => page)]
  · rw [result, represents.result, written, List.length_cons,
      map_range'_update start.newId pages.length _ _ (fun page id => (firstUserKey page, id)),
      newId]
    rfl
  · intro id old
    rw [written, Function.update_of_ne (by omega)]
    exact represents.frame id old

theorem takePage_append_eq_some (userKey : Slice)
    (written : (writer.takePage userKey).append entry = some after) :
    pageAppendLeafEntry [] entry = some [entry] ∧
      after = (writer.takePage userKey).lengthen [entry] := by
  obtain ⟨page, appended, rfl⟩ := Option.map_eq_some_iff.mp written
  have fresh : (writer.takePage userKey).pool.pages (writer.takePage userKey).newPgId = [] :=
    Function.update_self _ _ _
  rw [fresh] at appended
  obtain rfl := pageAppendLeafEntry_eq appended
  exact ⟨appended, rfl⟩

/-- One entry that is written, in the loop and in the model of it without ids. -/
theorem Represents.write (represents : Represents start writer pages)
    (behind : ∀ page ∈ pages, firstUserKey page < entry.userKey)
    (written : writer.write entry = some after) :
    ∃ longer, Represents start after longer ∧ after.pass = writer.pass ∧
      longer.reverse.flatten = pages.reverse.flatten ++ [entry] ∧
      ∀ entries, writeEntries policy writer.state pages (entry :: entries) =
        writeEntries policy after.state longer entries := by
  cases pages with
  | nil =>
      rw [PageWriter.write, if_pos (represents.none rfl)] at written
      obtain ⟨appended, rfl⟩ := takePage_append_eq_some _ written
      refine ⟨_, represents.take behind, rfl, rfl, ?_⟩
      intro entries
      rw [writeEntries, appended]
      rfl
  | cons page pages =>
      have isOpen : writer.newPgId ≠ 0 := by
        have positive := start.positive
        rw [represents.length_pos]
        omega
      rw [PageWriter.write, if_neg isOpen] at written
      obtain ⟨⟨allocates, state⟩, asked, written⟩ := Option.bind_eq_some_iff.mp written
      rw [represents.item page rfl] at asked
      have same : Represents start { writer with state := state } (page :: pages) :=
        represents.of_same rfl rfl rfl rfl
      cases allocates with
      | true =>
          obtain ⟨appended, rfl⟩ := takePage_append_eq_some _ written
          refine ⟨_, same.take behind, rfl, by simp, ?_⟩
          intro entries
          rw [writeEntries, asked, Option.bind_some, if_pos rfl, appended]
          rfl
      | false =>
          obtain ⟨longer, appended, rfl⟩ := Option.map_eq_some_iff.mp written
          rw [same.openPage.1] at appended
          obtain rfl := pageAppendLeafEntry_eq appended
          refine ⟨_, same.grow, rfl, by simp, ?_⟩
          intro entries
          rw [writeEntries, asked, Option.bind_some, if_neg Bool.false_ne_true, appended]
          rfl

/-- The loop writes what the model without ids writes. -/
theorem Represents.foldlM {stream : List Entry} (represents : Represents start writer pages)
    (ascending : (pages.reverse.flatten ++ nonDuplicates writer.pass.currentUserKey
      writer.pass.lastSequenceForKey stream).Pairwise
        (fun front behind => front.userKey < behind.userKey))
    (run : stream.foldlM PageWriter.next writer = some after) :
    ∃ result, writeEntries policy writer.state pages (nonDuplicates
        writer.pass.currentUserKey writer.pass.lastSequenceForKey stream) = some result ∧
      Represents start after result.reverse := by
  induction stream generalizing writer pages with
  | nil =>
      obtain rfl := Option.some.inj run
      refine ⟨pages.reverse, ?_, by rwa [List.reverse_reverse]⟩
      cases pages <;> rfl
  | cons entry stream ih =>
      rw [List.foldlM_cons] at run
      obtain ⟨next, step, run⟩ := Option.bind_eq_some_iff.mp run
      rw [nonDuplicates_cons] at ascending ⊢
      cases dropped : (writer.pass.next entry).1 with
      | true =>
          rw [dropped, if_pos rfl] at ascending
          have isNext : next = { writer with pass := (writer.pass.next entry).2 } :=
            (Option.some.inj ((if_pos dropped).symm.trans step)).symm
          subst isNext
          rw [if_pos rfl]
          exact @ih { writer with pass := (writer.pass.next entry).2 } pages
            (represents.of_same rfl rfl rfl rfl) ascending run
      | false =>
          rw [dropped, if_neg Bool.false_ne_true] at ascending
          rw [if_neg Bool.false_ne_true]
          have written : PageWriter.write entry { writer with
              pass := (writer.pass.next entry).2 } = some next :=
            (if_neg (ne_true_of_eq_false dropped)).symm.trans step
          have same : Represents start { writer with
              pass := (writer.pass.next entry).2 } pages := represents.of_same rfl rfl rfl rfl
          have behind : ∀ page ∈ pages, firstUserKey page < entry.userKey := by
            intro page member
            have isFilled := represents.filled page member
            cases page with
            | nil => exact absurd rfl isFilled
            | cons first rest =>
                refine (List.pairwise_append.mp ascending).2.2 first ?_ entry
                  List.mem_cons_self
                exact List.mem_flatten.mpr ⟨_, List.mem_reverse.mpr member,
                  List.mem_cons_self⟩
          obtain ⟨longer, later, pass, whole, sameRun⟩ := same.write behind written
          rw [sameRun]
          have isPass : next.pass = ⟨some entry.userKey, entry.sequence⟩ := pass
          have goesOn := @ih next longer later (by
            rw [whole, isPass, List.append_assoc]
            exact ascending) run
          rwa [isPass] at goesOn

end

/-! ## What page writing leaves -/

/-- The live entries come in strictly ascending order. -/
theorem liveEntries_strict {stream : List Entry} (sorted : Sorted stream)
    (bounded : ∀ entry ∈ stream, entry.sequence < kMaxSequenceNumber) :
    (liveEntries stream).Pairwise (fun front behind => front.userKey < behind.userKey) :=
  (firstVersions_strict (ascending_of_not_before sorted.ascending) none).sublist
    (nonDuplicates_sublist bounded (.inl rfl))

/-- Page writing refines the model without ids. -/
theorem Passes.writeToPage_refines {getPageSplitPolicy : Nat → Nat → PageSplitPolicy}
    {stream : List Entry} {pool after : PagePool} {result : List (Slice × Nat)}
    (sorted : Sorted stream)
    (bounded : ∀ entry ∈ stream, entry.sequence < kMaxSequenceNumber)
    (written : Passes.writeToPage getPageSplitPolicy stream pool = some (result, after)) :
    ∃ pages, AhaTree.writeToPage getPageSplitPolicy stream = some pages ∧
      after.newId = pool.newId + pages.length ∧ (∀ page ∈ pages, page ≠ []) ∧
      pages = (List.range' pool.newId pages.length).map after.pages ∧
      result = (List.range' pool.newId pages.length).map
        (fun id => (firstUserKey (after.pages id), id)) ∧
      ∀ id < pool.newId, after.pages id = pool.pages id := by
  rw [Passes.writeToPage, Passes.countNonDuplicates_eq] at written
  rw [AhaTree.writeToPage]
  simp only at written ⊢
  by_cases sizes : (AhaTree.countNonDuplicates stream).2.1 = 0 ∨
      (AhaTree.countNonDuplicates stream).2.2 = 0
  · rw [if_pos sizes] at written
    cases written
  · rw [if_neg sizes] at written ⊢
    obtain ⟨state, started, later⟩ := Option.bind_eq_some_iff.mp written
    obtain ⟨writer, run, isResult⟩ := Option.map_eq_some_iff.mp later
    obtain ⟨rfl, rfl⟩ := Prod.mk.inj isResult
    obtain ⟨pages, same, represents⟩ :=
      (represents_nil KeyPass.start state pool).foldlM (liveEntries_strict sorted bounded) run
    rw [started, Option.bind_some]
    refine ⟨pages, same, ?_⟩
    have newId := represents.newId
    have contents := represents.contents
    have isMap := represents.result
    rw [List.length_reverse] at newId contents isMap
    rw [List.reverse_reverse] at contents
    exact ⟨newId, fun page member => represents.filled page (List.mem_reverse.mpr member),
      contents, isMap, represents.frame⟩

/-- The written pages, in the order of their pivots, hold the newest entry of each
user key that is a value, and no others. -/
theorem Passes.writeToPage_live (getPageSplitPolicy : Nat → Nat → PageSplitPolicy)
    (stream : List Entry) (pool after : PagePool) (result : List (Slice × Nat))
    (sorted : Sorted stream)
    (bounded : ∀ entry ∈ stream, entry.sequence < kMaxSequenceNumber)
    (written : Passes.writeToPage getPageSplitPolicy stream pool = some (result, after)) :
    (∀ entry, entry ∈ result.flatMap (fun item => after.pages item.2) ↔
      entry ∈ stream ∧ entry.IsValue ∧
        ∀ other ∈ stream, other.userKey = entry.userKey →
          other.sequence ≤ entry.sequence) ∧
    (result.flatMap (fun item => after.pages item.2)).Pairwise
      (fun front behind => front.userKey < behind.userKey) ∧
    (Passes.countNonDuplicates stream).1 =
      (result.flatMap (fun item => after.pages item.2)).length ∧
    (∀ item ∈ result, ∃ first rest, after.pages item.2 = first :: rest ∧
      item.1 = first.userKey) ∧
    Lib.Ascending result ∧
    result.map Prod.snd = List.range' pool.newId (after.newId - pool.newId) ∧
    ∀ id < pool.newId, after.pages id = pool.pages id := by
  obtain ⟨pages, same, newId, filled, contents, rfl, frame⟩ :=
    Passes.writeToPage_refines sorted bounded written
  have whole : ((List.range' pool.newId pages.length).map
      (fun id => (firstUserKey (after.pages id), id))).flatMap
        (fun item => after.pages item.2) = liveEntries stream := by
    rw [← writeToPage_flatten same, contents, List.flatMap_map, List.length_map,
      List.length_range', List.flatMap_def]
  have strict := liveEntries_strict sorted bounded
  have full : ∀ id ∈ List.range' pool.newId pages.length, ∃ first rest,
      after.pages id = first :: rest ∧ firstUserKey (after.pages id) = first.userKey := by
    intro id member
    have isPage : after.pages id ∈ pages := by
      rw [contents]
      exact List.mem_map_of_mem member
    cases page : after.pages id with
    | nil => exact absurd page (filled _ isPage)
    | cons first rest => exact ⟨first, rest, rfl, rfl⟩
  rw [whole]
  refine ⟨?_, strict, ?_, ?_, ?_, ?_, frame⟩
  · exact sorted.mem_liveEntries bounded
  · rw [Passes.countNonDuplicates_eq]
    rfl
  · intro item member
    obtain ⟨id, isId, rfl⟩ := List.mem_map.mp member
    exact full id isId
  · have apart := (List.pairwise_flatten.mp
      ((writeToPage_flatten same).symm ▸ strict)).2
    rw [contents, List.pairwise_map] at apart
    refine List.pairwise_map.mpr (apart.imp_of_mem ?_)
    intro front behind isFront isBehind order
    obtain ⟨first, rest, frontPage, frontKey⟩ := full front isFront
    obtain ⟨second, later, behindPage, behindKey⟩ := full behind isBehind
    rw [frontKey, behindKey]
    refine order first ?_ second ?_
    · rw [frontPage]
      exact List.mem_cons_self
    · rw [behindPage]
      exact List.mem_cons_self
  · rw [List.map_map, newId, Nat.add_sub_cancel_left]
    exact List.map_id _

/-- Two versions of one key, a deletion in front of a version, and a single value. -/
def versionedStream : List Entry :=
  [⟨⟨[1], 3, .kTypeValue⟩, [30]⟩, ⟨⟨[1], 2, .kTypeValue⟩, [20]⟩,
    ⟨⟨[2], 5, .kTypeDeletion⟩, []⟩, ⟨⟨[2], 4, .kTypeValue⟩, [40]⟩,
    ⟨⟨[3], 1, .kTypeValue⟩, [10]⟩]

theorem versionedStream_sorted : Sorted versionedStream where
  ascending := by decide
  named := by decide

/-- Page writing on an empty buffer manager. -/
theorem writeToPage_live_versions : ∃ result after,
    Passes.writeToPage evenSplitPolicy versionedStream ⟨1, fun _ => [], Nat.one_pos⟩ =
      some (result, after) ∧
    (∀ entry, entry ∈ result.flatMap (fun item => after.pages item.2) ↔
      entry ∈ versionedStream ∧ entry.IsValue ∧
        ∀ other ∈ versionedStream, other.userKey = entry.userKey →
          other.sequence ≤ entry.sequence) ∧
    (Passes.countNonDuplicates versionedStream).1 =
      (result.flatMap (fun item => after.pages item.2)).length := by
  have ends : (Passes.writeToPage evenSplitPolicy versionedStream
      ⟨1, fun _ => [], Nat.one_pos⟩).isSome := by decide
  obtain ⟨⟨result, after⟩, written⟩ := Option.isSome_iff_exists.mp ends
  obtain ⟨live, -, count, -⟩ := Passes.writeToPage_live evenSplitPolicy versionedStream _ after
    result versionedStream_sorted (by decide) written
  exact ⟨result, after, written, live, count⟩

end AhaTree
