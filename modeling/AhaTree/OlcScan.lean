import AhaTree.BtreeOlc

/-!
# What a scan has validated

A page that a scan has read without a lock is validated when its word was readable
before and is found unchanged afterwards.  `scan` validates whatever it reads as
long as it does not meet four cases: a first key behind the interval, where it
returns without a check, a locked sibling, whose flag the next check overwrites, a
sibling to which it takes a key of the leaf it has just checked, and a restart after
it has collected an entry.
-/

namespace AhaTree.Olc

open Lib (Program)

abbrev Event := Program.Event Ask Reply

/-! ## The property -/

/-- The word under which a page was last taken. -/
def taken (page : PageId) : List Event → Option Version
  | [] => none
  | ⟨.readLock id, version⟩ :: log => (taken page log).or (if id = page then some version else none)
  | _ :: log => taken page log

/-- Between these two parts of a log, the page is read under a word that was readable
and that a later check has found again. -/
def Validated (before : List Event) (page : PageId) (after : List Event) : Prop :=
  ∃ version : Version, taken page before = some version ∧ Readable version ∧
    (⟨.check page, version⟩ : Event) ∈ after

def NoRestart (log : List Event) : Prop :=
  (⟨.restart, ()⟩ : Event) ∉ log

/-- The page that a question reads, the page itself or a slice into it. -/
def Ask.page : Ask → Option PageId
  | .read id => some id
  | .load slice => some slice.page
  | _ => none

/-- All pages that the last attempt has read are validated, and all from which an
entry has been collected. -/
structure ScanValidated (log : List Event) : Prop where
  decided : ∀ before event page after, log = before ++ event :: after →
    event.1.page = some page → NoRestart after → Validated before page after
  collected : ∀ before keySlice valueSlice key value after,
    log = before ++ ⟨.load keySlice, key⟩ :: ⟨.load valueSlice, value⟩ ::
      ⟨.collect key value, ()⟩ :: after →
        Validated before keySlice.page after ∧ Validated before valueSlice.page after

/-- The entries that have been collected, in order. -/
def collectedEntries : List Event → LeafItems
  | [] => []
  | ⟨.collect key value, _⟩ :: log => (key, value) :: collectedEntries log
  | _ :: log => collectedEntries log

/-- The steps of a scan that do not lead past a check. -/
structure Careful (fuel : Nat) (low up : Slice) (log : List Event) : Prop where
  startsInside : ∀ before first second after leaf position current key,
    log = before ++ (first ++ (second ++ after)) →
      Program.Ends (scanStart fuel low) first (some (leaf, position, current)) →
        Program.Ends (load current) second key → key ≤ up
  unlockedSiblings : ∀ before sibling version page word after,
    log = before ++ ⟨.readLock sibling, version⟩ :: ⟨.check page, word⟩ :: after →
      Readable version
  leavesNoKey : ∀ before page word slice bytes after,
    log ≠ before ++ ⟨.check page, word⟩ :: ⟨.load slice, bytes⟩ :: after
  keepsNothing : ∀ before key value after,
    log = before ++ ⟨.collect key value, ()⟩ :: after → NoRestart after

/-! ## Logs -/

section Logs

/-- The words under which pages are held after a log. -/
def viewAfter (view : PageId → Option Version) : List Event → PageId → Option Version
  | [] => view
  | ⟨.readLock id, version⟩ :: log => viewAfter (Function.update view id (some version)) log
  | _ :: log => viewAfter view log

/-- The page is held under a readable word, and the log checks it, or it is the page
`pending`, which is still held under its word. -/
def Covered (pending : Option Held) (view : PageId → Option Version) (page : PageId)
    (log : List Event) : Prop :=
  ∃ version : Version, view page = some version ∧ Readable version ∧
    (pending = some ⟨page, version⟩ ∨ (⟨.check page, version⟩ : Event) ∈ log)

/-- Every reading in the log is covered by what follows. -/
def Settled (pending : Option Held) (view : PageId → Option Version) : List Event → Prop
  | [] => True
  | ⟨.read page, _⟩ :: log => Covered pending view page log ∧ Settled pending view log
  | ⟨.load slice, _⟩ :: log => Covered pending view slice.page log ∧ Settled pending view log
  | ⟨.readLock id, version⟩ :: log => Settled pending (Function.update view id (some version)) log
  | _ :: log => Settled pending view log

variable {pending later : Option Held} {view : PageId → Option Version}
  {first second log : List Event}

theorem viewAfter_append :
    viewAfter view (first ++ second) = viewAfter (viewAfter view first) second := by
  induction first generalizing view with
  | nil => rfl
  | cons event first ih =>
      obtain ⟨question, answer⟩ := event
      cases question with
      | readLock id => exact ih
      | _ => exact ih

theorem taken_append (page : PageId) :
    taken page (first ++ second) = (taken page second).or (taken page first) := by
  induction first with
  | nil => simp [taken]
  | cons event first ih =>
      obtain ⟨question, answer⟩ := event
      cases question with
      | readLock id => simp [taken, ih, Option.or_assoc]
      | _ => exact ih

theorem update_eq (view : PageId → Option Version) (id page : PageId) (version : Version) :
    Function.update view id (some version) page =
      (if id = page then some version else none).or (view page) := by
  by_cases same : id = page
  · subst same
    simp
  · have others : page ≠ id := fun equal => same equal.symm
    simp [Function.update_of_ne others, same]

theorem Covered.append {page : PageId} (covered : Covered pending view page first)
    (settles : ∀ held, pending = some held → later = some held ∨
      (⟨.check held.id, held.version⟩ : Event) ∈ second) :
    Covered later view page (first ++ second) := by
  obtain ⟨version, isHeld, readable, settled⟩ := covered
  refine ⟨version, isHeld, readable, ?_⟩
  rcases settled with isPending | checked
  · rcases settles _ isPending with stays | checked
    · exact .inl stays
    · exact .inr (List.mem_append_right _ checked)
  · exact .inr (List.mem_append_left _ checked)

theorem Settled.append (earlier : Settled pending view first)
    (rest : Settled later (viewAfter view first) second)
    (settles : ∀ held, pending = some held → later = some held ∨
      (⟨.check held.id, held.version⟩ : Event) ∈ second) :
    Settled later view (first ++ second) := by
  induction first generalizing view with
  | nil => exact rest
  | cons event first ih =>
      obtain ⟨question, answer⟩ := event
      cases question with
      | readLock id => exact ih earlier rest
      | read page => exact ⟨earlier.1.append settles, ih earlier.2 rest⟩
      | load slice => exact ⟨earlier.1.append settles, ih earlier.2 rest⟩
      | _ => exact ih earlier rest

theorem Settled.covered {event : Event} {page : PageId}
    (settled : Settled pending view (event :: log)) (reads : event.1.page = some page) :
    Covered pending view page log := by
  obtain ⟨question, answer⟩ := event
  cases question with
  | read id =>
      cases reads
      exact settled.1
  | load slice =>
      cases reads
      exact settled.1
  | _ => cases reads

theorem Settled.validated (settled : Settled none view log) {before after : List Event}
    {event : Event} {page : PageId} (split : log = before ++ event :: after)
    (reads : event.1.page = some page) :
    ∃ version : Version, (taken page before).or (view page) = some version ∧
      Readable version ∧ (⟨.check page, version⟩ : Event) ∈ after := by
  induction before generalizing view log with
  | nil =>
      subst split
      obtain ⟨version, isHeld, readable, isPending | checked⟩ := settled.covered reads
      · cases isPending
      · exact ⟨version, isHeld, readable, checked⟩
  | cons first before ih =>
      subst split
      obtain ⟨question, answer⟩ := first
      cases question with
      | readLock id =>
          have later : Settled none (Function.update view id (some answer))
            (before ++ event :: after) := settled
          obtain ⟨version, isHeld, rest⟩ := ih later rfl
          refine ⟨version, ?_, rest⟩
          rw [← isHeld, taken, Option.or_assoc]
          exact congrArg _ (update_eq view id page answer).symm
      | read other =>
          have later : Settled none view (before ++ event :: after) := settled.2
          exact ih later rfl
      | load slice =>
          have later : Settled none view (before ++ event :: after) := settled.2
          exact ih later rfl
      | _ =>
          have later : Settled none view (before ++ event :: after) := settled
          exact ih later rfl

end Logs

/-! ## The way down -/

section Ends

variable {α : Type} {log : List Event} {result : α} {id : PageId}

theorem ends_readLock {rest : Version → Code α} :
    Program.Ends (readLock id >>= rest) log result ↔
      ∃ (version : Version) (later : List Event), log = ⟨.readLock id, version⟩ :: later ∧
        Program.Ends (rest version) later result :=
  Program.Ends.ask_iff

theorem ends_check {rest : Version → Code α} :
    Program.Ends (check id >>= rest) log result ↔
      ∃ (version : Version) (later : List Event), log = ⟨.check id, version⟩ :: later ∧
        Program.Ends (rest version) later result :=
  Program.Ends.ask_iff

theorem ends_read {rest : Node → Code α} :
    Program.Ends (read id >>= rest) log result ↔
      ∃ (node : Node) (later : List Event), log = ⟨.read id, node⟩ :: later ∧
        Program.Ends (rest node) later result :=
  Program.Ends.ask_iff

theorem ends_load {slice : Pointed} {bytes : Slice} :
    Program.Ends (load slice) log bytes ↔
      (slice.bytes.length = 0 ∧ log = [] ∧ bytes = []) ∨
        (slice.bytes.length ≠ 0 ∧ log = [⟨.load slice, bytes⟩]) := by
  rw [load]
  by_cases isEmpty : slice.bytes.length = 0
  · rw [if_pos isEmpty]
    simp only [isEmpty, true_and, ne_eq, not_true_eq_false, false_and, or_false]
    exact Program.Ends.done_iff.trans (and_congr_right' eq_comm)
  · rw [if_neg isEmpty]
    simp only [isEmpty, false_and, ne_eq, not_false_eq_true, true_and, false_or]
    constructor
    · intro ended
      obtain ⟨answer, later, rfl, last⟩ := Program.Ends.ask_iff.mp ended
      obtain ⟨rfl, rfl⟩ := Program.Ends.done_iff.mp last
      rfl
    · rintro rfl
      exact Program.Ends.ask_iff.mpr ⟨bytes, [], rfl, .start _⟩

/-- A copy is a reading of bytes that are there. -/
theorem ends_newPivot {slice : Pointed} {rest : Slice → Code α} :
    Program.Ends (newPivot slice >>= rest) log result ↔
      slice.bytes.length ≠ 0 ∧ ∃ (bytes : Slice) (later : List Event),
        log = ⟨.load slice, bytes⟩ :: later ∧ Program.Ends (rest bytes) later result := by
  rw [newPivot]
  by_cases isEmpty : slice.bytes.length = 0
  · rw [if_pos isEmpty]
    simp only [isEmpty, ne_eq, not_true_eq_false, false_and, iff_false]
    intro ended
    obtain ⟨impossible, -⟩ := Program.Ends.ask_iff.mp ended
    exact impossible.elim
  · rw [if_neg isEmpty]
    simp only [isEmpty, ne_eq, not_false_eq_true, true_and]
    exact Program.Ends.ask_iff

theorem ends_collect {key value : Slice} {rest : Unit → Code α} :
    Program.Ends (collect key value >>= rest) log result ↔
      ∃ later, log = ⟨.collect key value, ()⟩ :: later ∧ Program.Ends (rest ()) later result := by
  constructor
  · intro ended
    obtain ⟨⟨⟩, later, rfl, going⟩ := Program.Ends.ask_iff.mp ended
    exact ⟨later, rfl, going⟩
  · rintro ⟨later, rfl, going⟩
    exact Program.Ends.ask_iff.mpr ⟨(), later, rfl, going⟩

theorem ends_restart {rest : Unit → Code α} :
    Program.Ends (restart >>= rest) log result ↔
      ∃ later, log = ⟨.restart, ()⟩ :: later ∧ Program.Ends (rest ()) later result := by
  constructor
  · intro ended
    obtain ⟨⟨⟩, later, rfl, going⟩ := Program.Ends.ask_iff.mp ended
    exact ⟨later, rfl, going⟩
  · rintro ⟨later, rfl, going⟩
    exact Program.Ends.ask_iff.mpr ⟨(), later, rfl, going⟩

theorem ends_pure {value : α} :
    Program.Ends (pure value : Code α) log result ↔ log = [] ∧ value = result :=
  Program.Ends.done_iff

theorem not_ends_fail {failure : Failure} : ¬ Program.Ends (fail failure : Code α) log result := by
  intro ended
  obtain ⟨impossible, -⟩ := Program.Ends.ask_iff.mp ended
  exact impossible.elim

end Ends

section Descent

variable {view : PageId → Option Version} {log : List Event} {key low up : Slice}
  {current leaf : Held} {parent parentOut : Option Held}

/-- A check of the parent reads nothing. -/
theorem ends_parentUnchanged {unchanged : Bool} (pending : Option Held)
    (ended : Program.Ends (parentUnchanged parent) log unchanged) :
    Settled pending view log ∧ viewAfter view log = view := by
  cases parent with
  | none =>
      rw [parentUnchanged, ends_pure] at ended
      obtain ⟨rfl, -⟩ := ended
      exact ⟨trivial, rfl⟩
  | some parent =>
      rw [parentUnchanged, ends_check] at ended
      obtain ⟨version, rest, rfl, ended⟩ := ended
      rw [ends_pure] at ended
      obtain ⟨rfl, -⟩ := ended
      exact ⟨trivial, rfl⟩

theorem ends_readChild {child : PageId} (held : view current.id = some current.version)
    (readable : Readable current.version)
    (ended : Program.Ends (readChild current.id key) log child) :
    Settled (some current) view log ∧ viewAfter view log = view := by
  rw [readChild, ends_read] at ended
  obtain ⟨first, rest, rfl, ended⟩ := ended
  rw [ends_read] at ended
  obtain ⟨second, rest, rfl, ended⟩ := ended
  rw [ends_pure] at ended
  obtain ⟨rfl, -⟩ := ended
  exact ⟨⟨⟨_, held, readable, .inl rfl⟩, ⟨_, held, readable, .inl rfl⟩, trivial⟩, rfl⟩

/-- The way down settles all pages but the leaf, which it leaves held. -/
theorem ends_descend {fuel : Nat} (held : view current.id = some current.version)
    (readable : Readable current.version)
    (ended : Program.Ends (descend key fuel current parent) log (some (leaf, parentOut))) :
    Settled (some leaf) view log ∧ viewAfter view log leaf.id = some leaf.version ∧
      Readable leaf.version := by
  induction fuel generalizing view log current parent with
  | zero =>
      unfold descend at ended
      rw [ends_read] at ended
      obtain ⟨node, rest, rfl, ended⟩ := ended
      by_cases isLeaf : node.isLeaf = true
      · rw [if_pos isLeaf] at ended
        rw [ends_pure] at ended
        obtain ⟨rfl, isSome⟩ := ended
        cases isSome
        exact ⟨⟨⟨_, held, readable, .inl rfl⟩, trivial⟩, held, readable⟩
      · rw [if_neg isLeaf] at ended
        exact absurd ended not_ends_fail
  | succ fuel ih =>
      unfold descend at ended
      rw [ends_read] at ended
      obtain ⟨node, rest, rfl, ended⟩ := ended
      by_cases isLeaf : node.isLeaf = true
      · rw [if_pos isLeaf] at ended
        rw [ends_pure] at ended
        obtain ⟨rfl, isSome⟩ := ended
        cases isSome
        exact ⟨⟨⟨_, held, readable, .inl rfl⟩, trivial⟩, held, readable⟩
      · rw [if_neg isLeaf] at ended
        rw [Program.Ends.bind_iff] at ended
        obtain ⟨checks, unchanged, rest, rfl, checked, ended⟩ := ended
        obtain ⟨checksSettled, sameView⟩ := @ends_parentUnchanged view _ _ _ (some leaf) checked
        cases unchanged with
        | false =>
            simp only [Bool.false_eq_true, if_false, ends_pure] at ended
            cases ended.2
        | true =>
            rw [if_pos rfl, Program.Ends.bind_iff] at ended
            obtain ⟨reads, child, rest, rfl, childRead, ended⟩ := ended
            obtain ⟨readsSettled, viewStays⟩ := ends_readChild held readable childRead
            rw [ends_check] at ended
            obtain ⟨version, rest, rfl, ended⟩ := ended
            by_cases same : version = current.version
            · rw [if_pos same] at ended
              subst same
              rw [ends_readLock] at ended
              obtain ⟨childVersion, rest, rfl, ended⟩ := ended
              by_cases childReadable : Readable childVersion
              · rw [if_pos childReadable] at ended
                obtain ⟨settled, isHeld, leafReadable⟩ :=
                  @ih (Function.update view child (some childVersion)) _ _ _
                    (Function.update_self ..) childReadable ended
                have tail : Settled (some leaf) view (⟨.check current.id, current.version⟩ ::
                    ⟨.readLock child, childVersion⟩ :: rest) := settled
                have behind := readsSettled.append (by rw [viewStays]; exact tail)
                  (fun other isCurrent => by
                    cases isCurrent
                    exact .inr List.mem_cons_self)
                have whole := checksSettled.append (by rw [sameView]; exact behind)
                  (fun _ isLeaf => .inl isLeaf)
                refine ⟨⟨⟨_, held, readable, .inr ?_⟩, whole⟩, ?_, leafReadable⟩
                · exact List.mem_append_right _ (List.mem_append_right _ List.mem_cons_self)
                · change viewAfter view (checks ++ (reads ++ _)) leaf.id = some leaf.version
                  rw [viewAfter_append, sameView, viewAfter_append, viewStays]
                  exact isHeld
              · rw [if_neg childReadable] at ended
                rw [ends_pure] at ended
                obtain ⟨-, isSome⟩ := ended
                cases isSome
            · rw [if_neg same] at ended
              rw [ends_pure] at ended
              obtain ⟨-, isSome⟩ := ended
              cases isSome

theorem ends_descendFromRoot {fuel : Nat}
    (ended : Program.Ends (descendFromRoot fuel key) log (some (leaf, parentOut))) :
    Settled (some leaf) view log ∧ viewAfter view log leaf.id = some leaf.version ∧
      Readable leaf.version := by
  rw [descendFromRoot, ends_readLock] at ended
  obtain ⟨version, rest, rfl, ended⟩ := ended
  by_cases readable : Readable version
  · rw [if_pos readable] at ended
    exact @ends_descend (Function.update view rootPageId (some version)) _ _ _ _ _ _ _
      (Function.update_self ..) readable ended
  · rw [if_neg readable, ends_pure] at ended
    cases ended.2

/-- The first leaf is held, and all other pages are settled. -/
theorem ends_scanStart {fuel position : Nat} {slice : Pointed}
    (ended : Program.Ends (scanStart fuel low) log (some (leaf, position, slice))) :
    Settled (some leaf) view log ∧ viewAfter view log leaf.id = some leaf.version ∧
      Readable leaf.version ∧ slice.page = leaf.id := by
  rw [scanStart, Program.Ends.bind_iff] at ended
  obtain ⟨first, found, rest, rfl, descended, ended⟩ := ended
  cases found with
  | none =>
      rw [ends_pure] at ended
      cases ended.2
  | some found =>
      obtain ⟨start, parent⟩ := found
      obtain ⟨settled, held, readable⟩ := @ends_descendFromRoot view _ _ _ _ _ descended
      simp only [Program.Ends.bind_iff] at ended
      obtain ⟨checks, unchanged, rest, rfl, checked, ended⟩ := ended
      obtain ⟨checksSettled, sameView⟩ :=
        @ends_parentUnchanged (viewAfter view first) _ _ _ (some start) checked
      cases unchanged with
      | false =>
          simp only [Bool.false_eq_true, if_false, ends_pure] at ended
          cases ended.2
      | true =>
          rw [if_pos rfl, ends_read] at ended
          obtain ⟨node, rest, rfl, ended⟩ := ended
          rw [ends_read] at ended
          obtain ⟨again, rest, rfl, ended⟩ := ended
          rw [ends_pure] at ended
          obtain ⟨rfl, isSome⟩ := ended
          cases isSome
          have reads : Settled (some leaf) (viewAfter view first)
              [⟨.read leaf.id, node⟩, ⟨.read leaf.id, again⟩] :=
            ⟨⟨_, held, readable, .inl rfl⟩, ⟨_, held, readable, .inl rfl⟩, trivial⟩
          have behind := checksSettled.append (by rw [sameView]; exact reads)
            (fun _ isStart => .inl isStart)
          refine ⟨settled.append behind (fun _ isStart => .inl isStart), ?_, readable, rfl⟩
          rw [viewAfter_append, viewAfter_append, sameView]
          exact held

end Descent

/-! ## Along the leaves -/

section Leaves

variable {view : PageId → Option Version} {log : List Event} {key low up : Slice}
  {leaf : Held} {results : LeafItems}

/-- A slice into the leaf, or one that refers to nothing. -/
def PointsInto (leaf : Held) (slice : Pointed) : Prop :=
  slice.page = leaf.id ∨ slice.bytes.length = 0

/-- What is read of the leaf is left to the check of its version, and no other page is
handed over. -/
structure OnLeaf (leaf : Held) (view : PageId → Option Version) (log : List Event) : Prop where
  settled : Settled (some leaf) view log
  stays : viewAfter view log = view

namespace OnLeaf

theorem append {first second : List Event} (earlier : OnLeaf leaf view first)
    (rest : OnLeaf leaf view second) : OnLeaf leaf view (first ++ second) where
  settled := by
    refine earlier.settled.append ?_ fun _ isLeaf => .inl isLeaf
    rw [earlier.stays]
    exact rest.settled
  stays := by rw [viewAfter_append, earlier.stays, rest.stays]

theorem read (held : view leaf.id = some leaf.version) (readable : Readable leaf.version)
    (node : Node) : OnLeaf leaf view [⟨.read leaf.id, node⟩] :=
  ⟨⟨⟨_, held, readable, .inl rfl⟩, trivial⟩, rfl⟩

/-- The check of the version settles what has been read. -/
theorem finishes {tail : List Event} (on : OnLeaf leaf view log)
    (rest : Settled none view tail) (checked : (⟨.check leaf.id, leaf.version⟩ : Event) ∈ tail) :
    Settled none view (log ++ tail) ∧
      (⟨.check leaf.id, leaf.version⟩ : Event) ∈ log ++ tail := by
  refine ⟨on.settled.append ?_ ?_, List.mem_append_right _ checked⟩
  · rw [on.stays]
    exact rest
  · intro other isLeaf
    cases isLeaf
    exact .inr checked

end OnLeaf

theorem onLeaf_load {slice : Pointed} {bytes : Slice} (pointed : PointsInto leaf slice)
    (held : view leaf.id = some leaf.version) (readable : Readable leaf.version)
    (ended : Program.Ends (load slice) log bytes) : OnLeaf leaf view log := by
  rcases ends_load.mp ended with ⟨-, rfl, -⟩ | ⟨nonempty, rfl⟩
  · exact ⟨trivial, rfl⟩
  · have isLeaf := pointed.resolve_right nonempty
    refine ⟨⟨⟨leaf.version, ?_, readable, .inl ?_⟩, trivial⟩, rfl⟩
    · rw [isLeaf]
      exact held
    · rw [isLeaf]

/-- The questions for one entry. -/
theorem ends_entry {α : Type} {id : PageId} {position : Nat} {current : Pointed}
    {rest : Slice → Slice → Code α} {result : α}
    (ended : Program.Ends (do
      let node ← read id
      let key ← newPivot current
      let value ← newPivot ⟨id, pageReadValAt node position⟩
      collect key value
      rest key value) log result) :
    ∃ (node : Node) (key value : Slice) (later : List Event),
      log = ⟨.read id, node⟩ :: ⟨.load current, key⟩ ::
        ⟨.load ⟨id, pageReadValAt node position⟩, value⟩ :: ⟨.collect key value, ()⟩ :: later ∧
      Program.Ends (rest key value) later result := by
  rw [ends_read] at ended
  obtain ⟨node, later, rfl, ended⟩ := ended
  rw [ends_newPivot] at ended
  obtain ⟨-, key, later, rfl, ended⟩ := ended
  rw [ends_newPivot] at ended
  obtain ⟨-, value, later, rfl, ended⟩ := ended
  rw [ends_collect] at ended
  obtain ⟨later, rfl, ended⟩ := ended
  exact ⟨node, key, value, later, rfl, ended⟩

theorem ends_collectEntries {count position : Nat} {current : Pointed}
    {outcome : Pointed × LeafItems} (pointed : PointsInto leaf current)
    (held : view leaf.id = some leaf.version) (readable : Readable leaf.version)
    (ended : Program.Ends (collectEntries leaf.id up count position current results) log
      outcome) : OnLeaf leaf view log ∧ PointsInto leaf outcome.1 := by
  induction count generalizing position current results log with
  | zero =>
      rw [collectEntries, ends_pure] at ended
      obtain ⟨rfl, rfl⟩ := ended
      exact ⟨⟨trivial, rfl⟩, pointed⟩
  | succ count ih =>
      rw [collectEntries, ends_read] at ended
      obtain ⟨node, rest, rfl, ended⟩ := ended
      have own : PointsInto leaf ⟨leaf.id, pageReadKeyAtOffset node position⟩ := .inl rfl
      dsimp only at ended
      rw [Program.Ends.bind_iff] at ended
      obtain ⟨first, compared, rest, rfl, loaded, ended⟩ := ended
      have looked := (OnLeaf.read held readable node).append (onLeaf_load own held readable loaded)
      by_cases past : up < compared
      · rw [if_pos past, ends_pure] at ended
        obtain ⟨rfl, rfl⟩ := ended
        rw [List.append_nil]
        exact ⟨looked, own⟩
      · rw [if_neg past] at ended
        replace ended := ends_entry ended
        obtain ⟨again, key, value, rest, rfl, ended⟩ := ended
        obtain ⟨entries, last⟩ := ih own ended
        have isHeld : ∀ log, Covered (some leaf) view leaf.id log :=
          fun log => ⟨_, held, readable, .inl rfl⟩
        have behind : OnLeaf leaf view (⟨.read leaf.id, again⟩ ::
            ⟨.load ⟨leaf.id, pageReadKeyAtOffset node position⟩, key⟩ ::
            ⟨.load ⟨leaf.id, pageReadValAt again position⟩, value⟩ ::
            ⟨.collect key value, ()⟩ :: rest) :=
          ⟨⟨isHeld _, isHeld _, isHeld _, entries.settled⟩, entries.stays⟩
        exact ⟨looked.append behind, last⟩

/-- A hand-over takes the version of an unlocked sibling. -/
def UnlockedSiblings (log : List Event) : Prop :=
  ∀ before sibling version page word after,
    log = before ++ ⟨.readLock sibling, version⟩ :: ⟨.check page, word⟩ :: after →
      Readable version

theorem UnlockedSiblings.suffix {before after : List Event}
    (unlocked : UnlockedSiblings (before ++ after)) : UnlockedSiblings after := by
  intro early sibling version page word late split
  apply unlocked (before ++ early) sibling version page word late
  rw [split, List.append_assoc]

/-- After a check the scan does not go back to a key of the page. -/
def LeavesNoKey (log : List Event) : Prop :=
  ∀ before page word slice bytes after,
    log ≠ before ++ ⟨.check page, word⟩ :: ⟨.load slice, bytes⟩ :: after

theorem LeavesNoKey.suffix {before after : List Event}
    (leaves : LeavesNoKey (before ++ after)) : LeavesNoKey after := by
  intro early page word slice bytes late split
  apply leaves (before ++ early) page word slice bytes late
  rw [split, List.append_assoc]

/-- A key with which the scan goes on right after a check refers to nothing. -/
theorem empty_of_leavesNoKey {page : PageId} {word : Version} {slice : Pointed} {α : Type}
    {rest : Slice → Code α} {result : α} (leaves : LeavesNoKey (⟨.check page, word⟩ :: log))
    (ended : Program.Ends (load slice >>= rest) log result) : slice.bytes.length = 0 := by
  obtain ⟨first, bytes, later, rfl, loaded, -⟩ := Program.Ends.bind_iff.mp ended
  rcases ends_load.mp loaded with ⟨isEmpty, -⟩ | ⟨-, rfl⟩
  · exact isEmpty
  · exact absurd rfl (leaves [] page word slice bytes later)

theorem ends_scanLeaves {fuel position : Nat} {current : Pointed} {out : LeafItems}
    (held : view leaf.id = some leaf.version) (readable : Readable leaf.version)
    (pointed : PointsInto leaf current)
    (inside : ∀ first compared after, log = first ++ after →
      Program.Ends (load current) first compared → compared ≤ up)
    (unlocked : UnlockedSiblings log) (leaves : LeavesNoKey log)
    (ended : Program.Ends (scanLeaves up fuel leaf position current results) log
      (.returned out)) :
    Settled none view log ∧ (⟨.check leaf.id, leaf.version⟩ : Event) ∈ log := by
  induction fuel generalizing view log leaf position current results with
  | zero =>
      unfold scanLeaves at ended
      rw [Program.Ends.bind_iff] at ended
      obtain ⟨first, compared, rest, rfl, loaded, ended⟩ := ended
      rw [if_neg (not_lt.mpr (inside _ _ _ rfl loaded))] at ended
      exact absurd ended not_ends_fail
  | succ fuel ih =>
      unfold scanLeaves at ended
      rw [Program.Ends.bind_iff] at ended
      obtain ⟨first, compared, rest, rfl, loaded, ended⟩ := ended
      rw [if_neg (not_lt.mpr (inside _ _ _ rfl loaded))] at ended
      have compares := onLeaf_load pointed held readable loaded
      simp only [ends_read] at ended
      obtain ⟨node, rest, rfl, ended⟩ := ended
      rw [Program.Ends.bind_iff] at ended
      obtain ⟨entries, ⟨last, collected⟩, rest, rfl, entered, ended⟩ := ended
      obtain ⟨collects, lastPointed⟩ := ends_collectEntries pointed held readable entered
      simp only [ends_read] at ended
      obtain ⟨again, rest, rfl, ended⟩ := ended
      rw [Program.Ends.bind_iff] at ended
      obtain ⟨second, comparedLast, rest, rfl, loadedLast, ended⟩ := ended
      have looksOn := onLeaf_load lastPointed held readable loadedLast
      -- all that has been read so far is on the leaf, which the rest has to check
      have reads : OnLeaf leaf view (first ++ ([⟨.read leaf.id, node⟩] ++
          (entries ++ ([⟨.read leaf.id, again⟩] ++ second)))) :=
        compares.append ((OnLeaf.read held readable node).append
          (collects.append ((OnLeaf.read held readable again).append looksOn)))
      have whole : first ++ ⟨.read leaf.id, node⟩ ::
            (entries ++ ⟨.read leaf.id, again⟩ :: (second ++ rest)) =
          first ++ ([⟨.read leaf.id, node⟩] ++
            (entries ++ ([⟨.read leaf.id, again⟩] ++ second))) ++ rest := by
        simp
      rw [whole] at unlocked leaves ⊢
      generalize first ++ ([⟨.read leaf.id, node⟩] ++
        (entries ++ ([⟨.read leaf.id, again⟩] ++ second))) = looked at reads unlocked leaves ⊢
      by_cases stops : up < comparedLast ∨ again.right = 0
      · rw [if_pos stops, ends_check] at ended
        obtain ⟨version, rest, rfl, ended⟩ := ended
        by_cases same : version = leaf.version
        · rw [if_pos same, ends_pure] at ended
          obtain ⟨rfl, -⟩ := ended
          subst same
          exact reads.finishes trivial List.mem_cons_self
        · rw [if_neg same, ends_pure] at ended
          cases ended.2
      · rw [if_neg stops, ends_readLock] at ended
        obtain ⟨siblingVersion, rest, rfl, ended⟩ := ended
        rw [ends_check] at ended
        obtain ⟨version, rest, rfl, ended⟩ := ended
        by_cases same : version = leaf.version
        · rw [if_pos same] at ended
          subst same
          have handed := unlocked.suffix
          have siblingReadable : Readable siblingVersion := handed [] _ _ _ _ _ rfl
          have later : UnlockedSiblings rest :=
            @UnlockedSiblings.suffix [⟨.readLock again.right, siblingVersion⟩,
              ⟨.check leaf.id, leaf.version⟩] rest handed
          have noKey : LeavesNoKey (⟨.check leaf.id, leaf.version⟩ :: rest) :=
            @LeavesNoKey.suffix [⟨.readLock again.right, siblingVersion⟩] _ leaves.suffix
          have isEmpty : last.bytes.length = 0 := by
            have going := ended
            unfold scanLeaves at going
            exact empty_of_leavesNoKey noKey going
          have stillInside : ∀ first compared after, rest = first ++ after →
              Program.Ends (load last) first compared → compared ≤ up := by
            intro first compared after split loaded
            rcases ends_load.mp loaded with ⟨-, -, rfl⟩ | ⟨nonempty, -⟩
            · exact not_lt.mp (List.not_lt_nil up)
            · exact absurd isEmpty nonempty
          have rest := @ih (Function.update view again.right (some siblingVersion)) _
            ⟨again.right, siblingVersion⟩ _ _ _ (Function.update_self ..) siblingReadable
            (.inr isEmpty) stillInside later
            (@LeavesNoKey.suffix [⟨.check leaf.id, leaf.version⟩] _ noKey) ended
          exact reads.finishes rest.1 (List.mem_cons_of_mem _ List.mem_cons_self)
        · rw [if_neg same, ends_pure] at ended
          cases ended.2

end Leaves

/-! ## The whole scan -/

section Whole

variable {fuel attempts : Nat} {low up : Slice} {results out : LeafItems} {log : List Event}

theorem Careful.suffix {before after : List Event}
    (careful : Careful fuel low up (before ++ after)) : Careful fuel low up after := by
  obtain ⟨starts, unlocked, leaves, keeps⟩ := careful
  refine ⟨?_, UnlockedSiblings.suffix unlocked, LeavesNoKey.suffix leaves, ?_⟩
  · intro early first second late leaf position current key split
    exact starts (before ++ early) first second late leaf position current key
      (by rw [split, List.append_assoc])
  · intro early key value late split
    exact keeps (before ++ early) key value late (by rw [split, List.append_assoc])

theorem ends_scanAttempt (careful : Careful fuel low up log)
    (ended : Program.Ends (scanAttempt fuel low up results) log (.returned out)) :
    Settled none (fun _ => none) log := by
  rw [scanAttempt, Program.Ends.bind_iff] at ended
  obtain ⟨first, start, rest, rfl, started, ended⟩ := ended
  cases start with
  | none =>
      rw [ends_pure] at ended
      cases ended.2
  | some start =>
      obtain ⟨leaf, position, current⟩ := start
      obtain ⟨settled, held, readable, pointed⟩ :=
        @ends_scanStart (fun _ => none) _ _ _ _ _ _ started
      have inside : ∀ second key after, rest = second ++ after →
          Program.Ends (load current) second key → key ≤ up := by
        rintro second key after rfl loaded
        exact careful.startsInside [] first second after leaf position current key rfl started
          loaded
      obtain ⟨later, checked⟩ := ends_scanLeaves held readable (.inl pointed) inside
        (UnlockedSiblings.suffix careful.unlockedSiblings)
        (LeavesNoKey.suffix careful.leavesNoKey) ended
      refine settled.append later (fun other isLeaf => ?_)
      cases isLeaf
      exact .inr checked

theorem scan_decided (careful : Careful fuel low up log)
    (ended : Program.Ends (scan fuel low up attempts results) log out) :
    ∀ before event page after, log = before ++ event :: after → event.1.page = some page →
      NoRestart after → Validated before page after := by
  induction attempts generalizing results log with
  | zero => exact absurd ended not_ends_fail
  | succ attempts ih =>
      rw [scan, Program.Ends.bind_iff] at ended
      obtain ⟨first, outcome, rest, rfl, attempted, ended⟩ := ended
      cases outcome with
      | returned last =>
          simp only [ends_pure] at ended
          obtain ⟨rfl, rfl⟩ := ended
          rw [List.append_nil] at careful ⊢
          intro before event page after split reads _
          obtain ⟨version, isTaken, readable, checked⟩ :=
            (ends_scanAttempt careful attempted).validated split reads
          rw [Option.or_none] at isTaken
          exact ⟨version, isTaken, readable, checked⟩
      | restarted more =>
          simp only [ends_restart] at ended
          obtain ⟨later, rfl, ended⟩ := ended
          have suffix : Careful fuel low up later := by
            apply @Careful.suffix fuel low up (first ++ [⟨.restart, ()⟩])
            simpa using careful
          intro before event page after split reads noRestart
          rw [List.append_eq_append_iff] at split
          rcases split with ⟨middle, rfl, isLater⟩ | ⟨middle, rfl, isAfter⟩
          · cases middle with
            | nil =>
                cases isLater
                cases reads
            | cons first middle =>
                have split := (List.cons_eq_cons.mp isLater).2
                obtain ⟨version, isTaken, readable, checked⟩ :=
                  ih suffix ended middle event page after split reads noRestart
                refine ⟨version, ?_, readable, checked⟩
                have isRestart := (List.cons_eq_cons.mp isLater).1
                subst isRestart
                have skips : taken page (⟨.restart, ()⟩ :: middle) = taken page middle := rfl
                rw [taken_append, skips, isTaken, Option.some_or]
          · cases middle with
            | nil =>
                cases isAfter
                cases reads
            | cons first middle =>
                have split := (List.cons_eq_cons.mp isAfter).2
                rw [split] at noRestart
                exact absurd (List.mem_append_right _ List.mem_cons_self) noRestart

theorem Validated.behind {before after : List Event} {page : PageId} {event : Event}
    (validated : Validated before page (event :: after))
    (other : ∀ version : Version, event ≠ ⟨.check page, version⟩) :
    Validated before page after := by
  obtain ⟨version, isTaken, readable, checked⟩ := validated
  refine ⟨version, isTaken, readable, ?_⟩
  rcases List.mem_cons.mp checked with isCheck | checked
  · exact absurd isCheck.symm (other version)
  · exact checked

/-- The pages from which entries have been collected are those of the last attempt. -/
theorem scanValidated_of_careful (careful : Careful fuel low up log)
    (ended : Program.Ends (scan fuel low up attempts results) log out) : ScanValidated log := by
  have decided := scan_decided careful ended
  refine ⟨decided, ?_⟩
  intro before keySlice valueSlice key value after split
  have kept : NoRestart after := by
    apply careful.keepsNothing
      (before ++ [⟨.load keySlice, key⟩, ⟨.load valueSlice, value⟩]) key value after
    rw [split, List.append_assoc]
    rfl
  have collects : NoRestart (⟨.collect key value, ()⟩ :: after) := by
    intro member
    rcases List.mem_cons.mp member with isCollect | member
    · cases isCollect
    · exact kept member
  have loads : NoRestart (⟨.load valueSlice, value⟩ :: ⟨.collect key value, ()⟩ :: after) := by
    intro member
    rcases List.mem_cons.mp member with isLoad | member
    · cases isLoad
    · exact collects member
  constructor
  · have validated := decided before ⟨.load keySlice, key⟩ keySlice.page _ split rfl loads
    have behind := validated.behind (fun _ isCheck => by cases isCheck)
    exact behind.behind (fun _ isCheck => by cases isCheck)
  · have validated := decided (before ++ [⟨.load keySlice, key⟩]) ⟨.load valueSlice, value⟩
      valueSlice.page _ (by rw [split, List.append_assoc]; rfl) rfl collects
    obtain ⟨version, isTaken, readable, checked⟩ :=
      validated.behind (fun _ isCheck => by cases isCheck)
    refine ⟨version, ?_, readable, checked⟩
    rw [taken_append] at isTaken
    exact isTaken

end Whole

/-! ## What a scan returns -/

def Outcome.entries : Outcome → LeafItems
  | .returned results => results
  | .restarted results => results

section Returned

variable {fuel : Nat} {low up key : Slice} {results : LeafItems} {log : List Event}

def Ask.NoCollect : Ask → Prop
  | .collect _ _ => False
  | _ => True

theorem only_parentUnchanged (parent : Option Held) :
    Program.Only Ask.NoCollect (parentUnchanged parent) := by
  cases parent with
  | none => trivial
  | some parent => exact ⟨trivial, fun _ => trivial⟩

theorem only_descend (current : Held) (parent : Option Held) :
    Program.Only Ask.NoCollect (descend key fuel current parent) := by
  induction fuel generalizing current parent with
  | zero =>
      unfold descend
      refine ⟨trivial, fun node => ?_⟩
      change Program.Only _ (ite (Node.isLeaf node = true) _ _)
      split
      · trivial
      · exact ⟨trivial, fun impossible => impossible.elim⟩
  | succ fuel ih =>
      unfold descend
      refine ⟨trivial, fun node => ?_⟩
      change Program.Only _ (ite (Node.isLeaf node = true) _ _)
      split
      · trivial
      · refine (only_parentUnchanged parent).bind (fun unchanged => ?_)
        split
        · refine ⟨trivial, fun _ => ⟨trivial, fun _ => ⟨trivial, fun (version : Version) => ?_⟩⟩⟩
          change Program.Only _ (ite (version = current.version) _ _)
          split
          · refine ⟨trivial, fun (childVersion : Version) => ?_⟩
            change Program.Only _ (ite (Readable childVersion) _ _)
            split
            · exact ih _ _
            · trivial
          · trivial
        · trivial

theorem collectedEntries_of_only {α : Type} {program : Code α} {result : α}
    (only : Program.Only Ask.NoCollect program) (ended : Program.Ends program log result) :
    collectedEntries log = [] := by
  have allowed := only.after ended
  clear ended
  induction log with
  | nil => rfl
  | cons event log ih =>
      obtain ⟨question, answer⟩ := event
      have rest := ih (fun other member => allowed other (List.mem_cons_of_mem _ member))
      have first := allowed _ List.mem_cons_self
      cases question with
      | collect key value => exact first.elim
      | _ => exact rest

theorem collected_append (first second : List Event) :
    collectedEntries (first ++ second) = collectedEntries first ++ collectedEntries second := by
  induction first with
  | nil => rfl
  | cons event first ih =>
      obtain ⟨question, answer⟩ := event
      cases question with
      | collect key value =>
          change (key, value) :: collectedEntries (first ++ second) =
            (key, value) :: collectedEntries first ++ collectedEntries second
          rw [ih, List.cons_append]
      | _ => exact ih

theorem collected_scanStart {start : Option (Held × Nat × Pointed)}
    (ended : Program.Ends (scanStart fuel low) log start) : collectedEntries log = [] := by
  refine collectedEntries_of_only ?_ ended
  refine Program.Only.bind ⟨trivial, fun (version : Version) => ?_⟩ (fun found => ?_)
  · change Program.Only _ (ite (Readable version) _ _)
    split
    · exact only_descend _ _
    · trivial
  · cases found with
    | none => trivial
    | some found =>
        refine (only_parentUnchanged found.2).bind (fun unchanged => ?_)
        split
        · exact ⟨trivial, fun _ => ⟨trivial, fun _ => trivial⟩⟩
        · trivial

theorem collected_load {slice : Pointed} {bytes : Slice}
    (ended : Program.Ends (load slice) log bytes) : collectedEntries log = [] := by
  rcases ends_load.mp ended with ⟨-, rfl, -⟩ | ⟨-, rfl⟩
  · rfl
  · rfl

theorem collected_entries {page : PageId} {count position : Nat} {current : Pointed}
    {outcome : Pointed × LeafItems}
    (ended : Program.Ends (collectEntries page up count position current results) log outcome) :
    outcome.2 = results ++ collectedEntries log := by
  induction count generalizing position current results log with
  | zero =>
      rw [collectEntries, ends_pure] at ended
      obtain ⟨rfl, rfl⟩ := ended
      simp [collectedEntries]
  | succ count ih =>
      rw [collectEntries, ends_read] at ended
      obtain ⟨node, rest, rfl, ended⟩ := ended
      dsimp only at ended
      rw [Program.Ends.bind_iff] at ended
      obtain ⟨first, compared, rest, rfl, loaded, ended⟩ := ended
      by_cases past : up < compared
      · rw [if_pos past, ends_pure] at ended
        obtain ⟨rfl, rfl⟩ := ended
        simp [collectedEntries, collected_load loaded]
      · rw [if_neg past] at ended
        replace ended := ends_entry ended
        obtain ⟨again, key, value, rest, rfl, ended⟩ := ended
        rw [ih ended]
        simp [collectedEntries, collected_append, collected_load loaded]

theorem collected_scanLeaves {leaf : Held} {position : Nat} {current : Pointed}
    {outcome : Outcome}
    (ended : Program.Ends (scanLeaves up fuel leaf position current results) log outcome) :
    outcome.entries = results ++ collectedEntries log := by
  induction fuel generalizing log leaf position current results with
  | zero =>
      unfold scanLeaves at ended
      rw [Program.Ends.bind_iff] at ended
      obtain ⟨first, compared, rest, rfl, loaded, ended⟩ := ended
      rw [collected_append, collected_load loaded, List.nil_append]
      by_cases past : up < compared
      · rw [if_pos past, ends_pure] at ended
        obtain ⟨rfl, rfl⟩ := ended
        simp [collectedEntries, Outcome.entries]
      · rw [if_neg past] at ended
        exact absurd ended not_ends_fail
  | succ fuel ih =>
      unfold scanLeaves at ended
      rw [Program.Ends.bind_iff] at ended
      obtain ⟨first, compared, rest, rfl, loaded, ended⟩ := ended
      rw [collected_append, collected_load loaded, List.nil_append]
      by_cases past : up < compared
      · rw [if_pos past, ends_pure] at ended
        obtain ⟨rfl, rfl⟩ := ended
        simp [collectedEntries, Outcome.entries]
      · rw [if_neg past] at ended
        simp only [ends_read] at ended
        obtain ⟨node, rest, rfl, ended⟩ := ended
        rw [Program.Ends.bind_iff] at ended
        obtain ⟨entries, ⟨last, more⟩, rest, rfl, entered, ended⟩ := ended
        have collected := collected_entries entered
        simp only at collected
        subst collected
        simp only [ends_read] at ended
        obtain ⟨again, rest, rfl, ended⟩ := ended
        rw [Program.Ends.bind_iff] at ended
        obtain ⟨second, comparedLast, rest, rfl, loadedLast, ended⟩ := ended
        have quiet := collected_load loadedLast
        by_cases stops : up < comparedLast ∨ again.right = 0
        · rw [if_pos stops, ends_check] at ended
          obtain ⟨version, rest, rfl, ended⟩ := ended
          by_cases same : version = leaf.version
          · rw [if_pos same, ends_pure] at ended
            obtain ⟨rfl, rfl⟩ := ended
            simp [collectedEntries, collected_append, quiet, Outcome.entries]
          · rw [if_neg same, ends_pure] at ended
            obtain ⟨rfl, rfl⟩ := ended
            simp [collectedEntries, collected_append, quiet, Outcome.entries]
        · rw [if_neg stops, ends_readLock] at ended
          obtain ⟨siblingVersion, rest, rfl, ended⟩ := ended
          rw [ends_check] at ended
          obtain ⟨version, rest, rfl, ended⟩ := ended
          by_cases same : version = leaf.version
          · rw [if_pos same] at ended
            rw [ih ended]
            simp [collectedEntries, collected_append, quiet]
          · rw [if_neg same, ends_pure] at ended
            obtain ⟨rfl, rfl⟩ := ended
            simp [collectedEntries, collected_append, quiet, Outcome.entries]

/-- A scan returns what it has collected, in all of its attempts. -/
theorem scan_returns {attempts : Nat} {out : LeafItems}
    (ended : Program.Ends (scan fuel low up attempts results) log out) :
    out = results ++ collectedEntries log := by
  induction attempts generalizing results log with
  | zero => exact absurd ended not_ends_fail
  | succ attempts ih =>
      rw [scan, Program.Ends.bind_iff] at ended
      obtain ⟨first, outcome, rest, rfl, attempted, ended⟩ := ended
      have collected : outcome.entries = results ++ collectedEntries first := by
        rw [scanAttempt, Program.Ends.bind_iff] at attempted
        obtain ⟨early, start, late, rfl, started, attempted⟩ := attempted
        rw [collected_append, collected_scanStart started, List.nil_append]
        cases start with
        | none =>
            rw [ends_pure] at attempted
            obtain ⟨rfl, rfl⟩ := attempted
            simp [collectedEntries, Outcome.entries]
        | some start => exact collected_scanLeaves attempted
      rw [collected_append, ← List.append_assoc, ← collected]
      cases outcome with
      | returned last =>
          simp only [ends_pure] at ended
          obtain ⟨rfl, rfl⟩ := ended
          simp [collectedEntries, Outcome.entries]
      | restarted more =>
          simp only [ends_restart] at ended
          obtain ⟨later, rfl, ended⟩ := ended
          rw [ih ended]
          rfl

end Returned

/-! ## Interleavings -/

theorem ends_of_returned {calls : Nat → Call} {fuels attempts : Nat → Nat}
    {log : List (Nat × Event)} {now : Nat → Code Answer}
    (interleaved : Program.Interleaved
      (fun turn => (calls turn).code (fuels turn) (attempts turn)) log now)
    {turn : Nat} {low up : Slice} (isScan : calls turn = .scan low up) {results : LeafItems}
    (returned : now turn = .done (.entries results)) :
    Program.Ends (scan (fuels turn) low up (attempts turn) []) (Program.own turn log)
      results := by
  have ended : Program.Ends ((calls turn).code (fuels turn) (attempts turn))
      (Program.own turn log) (.entries results) := by
    rw [Program.Ends, ← returned]
    exact interleaved.after turn
  rw [isScan, Call.code, Program.Ends.bind_iff] at ended
  obtain ⟨first, middle, rest, isLog, scanned, ended⟩ := ended
  rw [ends_pure] at ended
  obtain ⟨rfl, isSame⟩ := ended
  cases isSame
  rw [isLog, List.append_nil]
  exact scanned

/-- A scan that returns has validated all it has read, whatever the other calls do and
whatever they leave in the pages, if its steps are careful. -/
theorem scan_validates (calls : Nat → Call) (fuels attempts : Nat → Nat)
    {log : List (Nat × Event)} {now : Nat → Code Answer}
    (interleaved : Program.Interleaved
      (fun turn => (calls turn).code (fuels turn) (attempts turn)) log now)
    {turn : Nat} {low up : Slice} (isScan : calls turn = .scan low up) {results : LeafItems}
    (returned : now turn = .done (.entries results))
    (careful : Careful (fuels turn) low up (Program.own turn log)) :
    ScanValidated (Program.own turn log) ∧
      results = collectedEntries (Program.own turn log) := by
  have ended := ends_of_returned interleaved isScan returned
  exact ⟨scanValidated_of_careful careful ended, scan_returns ended⟩

/-- The first call inserts an entry, and the others scan. -/
def insertThenScan (up : Slice) (turn : Nat) : Call :=
  if turn = 0 then .insert [5] [1] else .scan [1] up

/-- The root page with this entry. -/
def oneEntry : Node where
  content := .leaf [([5], [1])]
  free := 8138
  left := 0
  right := 0

/-- The key of the entry, and its value, as slices into the root page. -/
def oneKey : Pointed := ⟨0, [5]⟩

def oneValue : Pointed := ⟨0, [1]⟩

/-- What a scan asks when the entry lies behind its interval. -/
def uncheckedLog : List Event :=
  [⟨.readLock 0, (4 : Nat)⟩, ⟨.read 0, oneEntry⟩, ⟨.read 0, oneEntry⟩, ⟨.read 0, oneEntry⟩,
    ⟨.load oneKey, ([5] : Slice)⟩]

/-- What a scan asks when the entry lies in its interval. -/
def checkedLog : List Event :=
  [⟨.readLock 0, (4 : Nat)⟩, ⟨.read 0, oneEntry⟩, ⟨.read 0, oneEntry⟩, ⟨.read 0, oneEntry⟩,
    ⟨.load oneKey, ([5] : Slice)⟩, ⟨.read 0, oneEntry⟩, ⟨.read 0, oneEntry⟩,
    ⟨.load oneKey, ([5] : Slice)⟩, ⟨.read 0, oneEntry⟩, ⟨.load oneKey, ([5] : Slice)⟩,
    ⟨.load oneValue, ([1] : Slice)⟩, ⟨.collect [5] [1], ()⟩, ⟨.read 0, oneEntry⟩,
    ⟨.load oneKey, ([5] : Slice)⟩, ⟨.check 0, (4 : Nat)⟩]

/-- One call after the other, with the answers that the pages in memory give. -/
theorem interleaved_of_traces {up : Slice} {first second : List Event} {store last : Store}
    {results : LeafItems}
    (inserted : Program.trace Store.reply ((insertThenScan up 0).code 1 1) Store.initial =
      .ok (first, .ok, store))
    (scanned : Program.trace Store.reply ((insertThenScan up 1).code 1 1) store =
      .ok (second, .entries results, last)) :
    ∃ log now, Program.Interleaved (fun turn => (insertThenScan up turn).code 1 1) log now ∧
      now 1 = .done (.entries results) ∧ Program.own 1 log = second := by
  have idle : Program.Interleaved (fun turn => (insertThenScan up turn).code 1 1) []
    (fun turn => (insertThenScan up turn).code 1 1) := .start
  have begun := idle.alone 0 (Program.ends_of_trace inserted)
  have whole := begun.alone 1 (by
    rw [Function.update_of_ne (by decide)]
    exact Program.ends_of_trace scanned)
  refine ⟨_, _, whole, Function.update_self .., ?_⟩
  rw [Program.own_append, Program.own_append, Program.own_map_same,
    Program.own_map_other (by decide)]
  rfl

theorem careful_checkedLog : Careful 1 [1] [6] checkedLog := by
  refine ⟨?_, ?_, ?_, ?_⟩
  · intro before first second after leaf position current key split _ loaded
    rcases ends_load.mp loaded with ⟨-, -, rfl⟩ | ⟨-, rfl⟩
    · exact not_lt.mp (List.not_lt_nil _)
    · have inLog : (⟨.load current, key⟩ : Event) ∈ checkedLog := by
        rw [split]
        simp
      simp only [checkedLog, List.mem_cons, List.not_mem_nil, or_false] at inLog
      rcases inLog with same | same | same | same | same | same | same | same | same | same |
        same | same | same | same | same <;> cases same <;> decide
  · intro before sibling version page word after split
    have inLog : (⟨.readLock sibling, version⟩ : Event) ∈ checkedLog := by
      rw [split]
      exact List.mem_append_right _ List.mem_cons_self
    simp only [checkedLog, List.mem_cons, List.not_mem_nil, or_false] at inLog
    rcases inLog with same | same | same | same | same | same | same | same | same | same |
      same | same | same | same | same <;> cases same
    decide
  · -- the only check is the last event
    intro before page word slice bytes after split
    have inFront : (⟨.check page, word⟩ : Event) ∈ checkedLog.dropLast := by
      rw [split, List.dropLast_append_of_ne_nil (List.cons_ne_nil _ _), List.dropLast_cons_cons]
      exact List.mem_append_right _ List.mem_cons_self
    simp only [checkedLog, List.dropLast_cons_cons, List.dropLast_singleton, List.mem_cons,
      List.not_mem_nil, or_false] at inFront
    rcases inFront with same | same | same | same | same | same | same | same | same | same |
      same | same | same | same <;> cases same
  · intro before key value after split member
    have inLog : (⟨.restart, ()⟩ : Event) ∈ checkedLog := by
      rw [split]
      exact List.mem_append_right _ (List.mem_cons_of_mem _ member)
    simp only [checkedLog, List.mem_cons, List.not_mem_nil, or_false] at inLog
    rcases inLog with same | same | same | same | same | same | same | same | same | same |
      same | same | same | same | same <;> cases same

/-- The entry that a scan returns has been read under a word that it has checked. -/
theorem scan_validates_entry :
    ∃ log now, Program.Interleaved (fun turn => (insertThenScan [6] turn).code 1 1) log now ∧
      now 1 = .done (.entries [([5], [1])]) ∧ ScanValidated (Program.own 1 log) := by
  obtain ⟨log, now, interleaved, returned, isLog⟩ :=
    @interleaved_of_traces [6] _ checkedLog _ _ [([5], [1])] rfl rfl
  have validated := scan_validates (insertThenScan [6]) (fun _ => 1) (fun _ => 1) interleaved
    rfl returned (by rw [isLog]; exact careful_checkedLog)
  exact ⟨log, now, interleaved, returned, validated.1⟩

/-- A scan that stops at a first key behind its interval returns without a check. -/
theorem scan_returns_unchecked :
    ∃ log now, Program.Interleaved (fun turn => (insertThenScan [2] turn).code 1 1) log now ∧
      now 1 = .done (.entries []) ∧ Program.own 1 log = uncheckedLog ∧
      ¬ ScanValidated (Program.own 1 log) := by
  obtain ⟨log, now, interleaved, returned, isLog⟩ :=
    @interleaved_of_traces [2] _ uncheckedLog _ _ [] rfl rfl
  refine ⟨log, now, interleaved, returned, isLog, ?_⟩
  rw [isLog]
  intro validated
  obtain ⟨version, -, -, checked⟩ := validated.decided
    [⟨.readLock 0, (4 : Nat)⟩, ⟨.read 0, oneEntry⟩, ⟨.read 0, oneEntry⟩, ⟨.read 0, oneEntry⟩]
    ⟨.load oneKey, ([5] : Slice)⟩ 0 [] rfl rfl List.not_mem_nil
  exact List.not_mem_nil checked

end AhaTree.Olc
