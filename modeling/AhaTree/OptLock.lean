import AhaTree.Lib.Run
import AhaTree.BtreeOlc

/-!
# The optimistic lock

The `OptLock` of a page under any number of threads.  A step is one atomic access
to `type_version_lock_obsolete`.  A thread upgrades with a version that it has in
one of its variables: one that `ReadLockOrRestart` has returned, or the word that a
failed exchange has written over it.  Only a version that came without a request to
restart is safe to upgrade with, and the callers give up as soon as a restart is
requested.  `begun` and `ended` count the write sections.  `WriteUnlockObsolete` has
no caller.
-/

namespace AhaTree.OptLock

open Olc (Version isLocked isObsolete Readable)
open Lib (Reaches)

/-! ## The operations on the word -/

/-- `fetch_add(0b10)` on 64 bits. -/
def advance (word : Nat) : Nat := (word + 2) % 2 ^ 64

/-- The version, and whether a restart is requested. -/
def readLockOrRestart (word : Version) (needRestart : Bool) : Version × Bool :=
  (word, needRestart || isLocked word || isObsolete word)

/-- The word, the caller's version, and whether a restart is requested.  A failed
exchange writes the word into the caller's version. -/
def upgradeToWriteLockOrRestart (word version : Version) (needRestart : Bool) :
    Version × Version × Bool :=
  if word = version then (advance word, advance version, needRestart)
  else (word, word, true)

def writeUnlock (word : Version) : Version := advance word

def readUnlockOrRestart (word startRead : Version) : Bool := decide (startRead ≠ word)

def checkOrRestart (word startRead : Version) : Bool := readUnlockOrRestart word startRead

/-! ## Threads -/

variable {thread : Type} [DecidableEq thread]

structure State (thread : Type) where
  word : Version
  holds : thread → Bool
  /-- The versions that `ReadLockOrRestart` has returned without a restart. -/
  versions : thread → List Version
  /-- The versions that came with a restart: words that `ReadLockOrRestart` has returned,
  and words that a failed exchange has written into the caller's version. -/
  spoiled : thread → List Version
  /-- The version of a thread between the two accesses of `WriteLockOrRestart`. -/
  locking : thread → Option Version
  begun : Nat
  ended : Nat

inductive Act (thread : Type) where
  | readLock (caller : thread)
  | upgrade (caller : thread) (version : Version)
  | writeLock (caller : thread)
  | writeLockUpgrade (caller : thread)
  | writeUnlock (caller : thread)
  | check (caller : thread) (startRead : Version)
  deriving DecidableEq, Repr

/-- A new `OptLock` starts with `0b100`; in a page that was only cleared the word is 0. -/
def initial (start : Version) : State thread where
  word := start
  holds := fun _ => false
  versions := fun _ => []
  spoiled := fun _ => []
  locking := fun _ => none
  begun := 0
  ended := 0

namespace State

def addSpoiled (state : State thread) (caller : thread) (version : Version) :
    State thread :=
  { state with
    spoiled := Function.update state.spoiled caller
      (version :: state.spoiled caller) }

/-- `UpgradeToWriteLockOrRestart` by `caller`. -/
def upgrade (state : State thread) (caller : thread) (version : Version) : State thread :=
  let (word, overwritten, needRestart) :=
    upgradeToWriteLockOrRestart state.word version false
  if needRestart then { state with word }.addSpoiled caller overwritten
  else { state with
    word
    holds := Function.update state.holds caller true
    begun := state.begun + 1 }

/-- `WriteUnlock` by `caller`. -/
def unlock (state : State thread) (caller : thread) : State thread :=
  { state with
    word := writeUnlock state.word
    holds := Function.update state.holds caller false
    ended := state.ended + 1 }

def addVersion (state : State thread) (caller : thread) (version : Version) :
    State thread :=
  { state with
    versions := Function.update state.versions caller
      (version :: state.versions caller) }

def setLocking (state : State thread) (caller : thread) (version : Option Version) :
    State thread :=
  { state with locking := Function.update state.locking caller version }

def step (state : State thread) : Act thread → Option (State thread)
  | .readLock caller =>
      if state.locking caller = none then
        let (version, needRestart) := readLockOrRestart state.word false
        some (if needRestart then state.addSpoiled caller version
          else state.addVersion caller version)
      else none
  | .upgrade caller version =>
      if state.locking caller = none ∧
          (version ∈ state.versions caller ∨ version ∈ state.spoiled caller) then
        some (state.upgrade caller version)
      else none
  | .writeLock caller =>
      if state.locking caller = none then
        let (version, needRestart) := readLockOrRestart state.word false
        some (if needRestart then state else state.setLocking caller (some version))
      else none
  | .writeLockUpgrade caller =>
      (state.locking caller).map fun version =>
        (state.upgrade caller version).setLocking caller none
  | .writeUnlock caller =>
      if state.locking caller = none ∧ state.holds caller = true then
        some (state.unlock caller)
      else none
  | .check caller _ => if state.locking caller = none then some state else none

theorem upgrade_counts (state : State thread) (caller : thread) (version : Version) :
    state.begun ≤ (state.upgrade caller version).begun ∧
      state.ended ≤ (state.upgrade caller version).ended := by
  unfold upgrade upgradeToWriteLockOrRestart
  split_ifs
  · exact ⟨Nat.le_succ _, le_rfl⟩
  · exact ⟨le_rfl, le_rfl⟩

end State

/-- The states that a run can go through, from some state on, if all its steps are
allowed. -/
abbrev Run (allowed : State thread → Act thread → Prop) (before after : State thread) :
    Prop :=
  Reaches State.step allowed before after

/-- A thread does not upgrade with a version that came with a request to restart. -/
def GivesUp (state : State thread) : Act thread → Prop
  | .upgrade caller version => version ∈ state.versions caller
  | _ => True

/-! ## Words -/

/-- The word after so many beginnings and ends of write sections. -/
def wordAfter (start count : Nat) : Nat := (start + 2 * count) % 2 ^ 64

/-- A 64-bit word with neither of its two flags. -/
structure Free (start : Nat) : Prop where
  readable : Readable start
  word : start < 2 ^ 64

variable {start : Nat}

@[simp] theorem advance_wordAfter (start count : Nat) :
    advance (wordAfter start count) = wordAfter start (count + 1) := by
  unfold advance wordAfter
  omega

theorem isLocked_wordAfter (free : Free start) (count : Nat) :
    isLocked (wordAfter start count) = true ↔ count % 2 = 1 := by
  have unlocked : ¬ start / 2 % 2 = 1 := of_decide_eq_false free.readable.1
  have alive : ¬ start % 2 = 1 := of_decide_eq_false free.readable.2
  have bit : (start + 2 * count) % 2 ^ 64 / 2 % 2 = 1 ↔ count % 2 = 1 := by omega
  exact decide_eq_true_iff.trans bit

theorem wordAfter_inj {first second : Nat} (firstFew : first < 2 ^ 63)
    (secondFew : second < 2 ^ 63) (same : wordAfter start first = wordAfter start second) :
    first = second := by
  unfold wordAfter at same
  omega

theorem readable_of_readLock {word : Version}
    (clean : (readLockOrRestart word false).2 = false) : Readable word := by
  simpa [readLockOrRestart, Readable] using clean

/-! ## The invariant -/

/-- The word counts the write sections, of which at most the last one is open. -/
structure Counted (start : Version) (state : State thread) : Prop where
  free : Free start
  word : state.word = wordAfter start (state.begun + state.ended)
  /-- Either no section is open, or exactly one thread has one. -/
  holder : (state.begun = state.ended ∧ ∀ caller, state.holds caller = false) ∨
    (state.begun = state.ended + 1 ∧
      ∃ writer, ∀ caller, state.holds caller = decide (caller = writer))
  versions : ∀ caller, ∀ version ∈ state.versions caller, Readable version
  locking : ∀ caller, ∀ version ∈ state.locking caller, Readable version

namespace Counted

variable {state : State thread}

theorem isLocked_iff (counted : Counted start state) :
    isLocked state.word = true ↔ ∃ caller, state.holds caller = true := by
  rw [counted.word, isLocked_wordAfter counted.free]
  rcases counted.holder with ⟨same, noHolder⟩ | ⟨oneMore, writer, holds⟩
  · refine ⟨fun odd => by omega, ?_⟩
    rintro ⟨caller, held⟩
    rw [noHolder caller] at held
    cases held
  · exact ⟨fun _ => ⟨writer, by simp [holds]⟩, fun _ => by omega⟩

theorem not_held_of_readable (counted : Counted start state)
    (readable : Readable state.word) :
    state.begun = state.ended ∧ ∀ caller, state.holds caller = false := by
  rcases counted.holder with free | ⟨_, writer, holds⟩
  · exact free
  · have locked : isLocked state.word = true :=
      counted.isLocked_iff.mpr ⟨writer, by simp [holds]⟩
    rw [readable.1] at locked
    cases locked

theorem unique (counted : Counted start state) {first second : thread}
    (firstHolds : state.holds first = true) (secondHolds : state.holds second = true) :
    first = second := by
  rcases counted.holder with ⟨_, noHolder⟩ | ⟨_, writer, holds⟩
  · rw [noHolder] at firstHolds
    cases firstHolds
  · rw [holds, decide_eq_true_eq] at firstHolds secondHolds
    rw [firstHolds, secondHolds]

/-- An upgrade succeeds only on a word without the lock bit. -/
theorem upgrade (counted : Counted start state) (caller : thread) {version : Version}
    (readable : Readable version) : Counted start (state.upgrade caller version) := by
  unfold State.upgrade upgradeToWriteLockOrRestart
  by_cases same : state.word = version
  · obtain ⟨balanced, noHolder⟩ := counted.not_held_of_readable (same ▸ readable)
    simp only [if_pos same, Bool.false_eq_true, if_false]
    refine ⟨counted.free, ?_, .inr ⟨by simp [balanced], caller, fun other => ?_⟩,
      counted.versions, counted.locking⟩
    · change advance state.word = wordAfter start (state.begun + 1 + state.ended)
      rw [counted.word, advance_wordAfter]
      congr 1
      omega
    · by_cases isCaller : other = caller
      · simp [isCaller]
      · simp [isCaller, noHolder]
  · simp only [if_neg same, if_true]
    exact ⟨counted.free, counted.word, counted.holder, counted.versions, counted.locking⟩

theorem setLocking (counted : Counted start state) (caller : thread)
    {version : Option Version} (readable : ∀ taken ∈ version, Readable taken) :
    Counted start (state.setLocking caller version) := by
  unfold State.setLocking
  refine ⟨counted.free, counted.word, counted.holder, counted.versions,
    fun other taken isTaken => ?_⟩
  by_cases isCaller : other = caller
  · subst isCaller
    simp only [Function.update_self] at isTaken
    exact readable taken isTaken
  · simp only [Function.update_of_ne isCaller] at isTaken
    exact counted.locking other taken isTaken

theorem addVersion (counted : Counted start state) (caller : thread) {version : Version}
    (readable : Readable version) :
    Counted start (state.addVersion caller version) := by
  unfold State.addVersion
  refine ⟨counted.free, counted.word, counted.holder, fun other taken isTaken => ?_,
    counted.locking⟩
  by_cases isCaller : other = caller
  · subst isCaller
    simp only [Function.update_self] at isTaken
    rcases List.mem_cons.mp isTaken with rfl | earlier
    · exact readable
    · exact counted.versions other taken earlier
  · simp only [Function.update_of_ne isCaller] at isTaken
    exact counted.versions other taken isTaken

theorem addSpoiled (counted : Counted start state) (caller : thread) (version : Version) :
    Counted start (state.addSpoiled caller version) :=
  ⟨counted.free, counted.word, counted.holder, counted.versions, counted.locking⟩

theorem unlock (counted : Counted start state) {caller : thread}
    (held : state.holds caller = true) : Counted start (state.unlock caller) := by
  rcases counted.holder with ⟨_, noHolder⟩ | ⟨oneMore, writer, holds⟩
  · rw [noHolder] at held
    cases held
  · have isWriter : caller = writer := by simpa [holds] using held
    refine ⟨counted.free, ?_, .inl ⟨oneMore, fun other => ?_⟩, counted.versions,
      counted.locking⟩
    · change advance state.word = wordAfter start (state.begun + (state.ended + 1))
      rw [counted.word, advance_wordAfter]
      rfl
    · by_cases isCaller : other = caller
      · simp [State.unlock, isCaller]
      · simp [State.unlock, isCaller, holds, isWriter ▸ isCaller]

theorem step (counted : Counted start state) {taken : Act thread} {after : State thread}
    (givesUp : GivesUp state taken) (stepped : state.step taken = some after) :
    Counted start after := by
  cases taken with
  | readLock caller =>
      obtain ⟨_, ⟨⟩⟩ := Option.ite_none_right_eq_some.mp stepped
      change Counted start (if (readLockOrRestart state.word false).2 = true then
        state.addSpoiled caller state.word else state.addVersion caller state.word)
      split_ifs with restart
      · exact counted.addSpoiled caller state.word
      · exact counted.addVersion caller
          (readable_of_readLock (Bool.eq_false_iff.mpr restart))
  | upgrade caller version =>
      obtain ⟨_, ⟨⟩⟩ := Option.ite_none_right_eq_some.mp stepped
      exact counted.upgrade caller (counted.versions caller version givesUp)
  | writeLock caller =>
      obtain ⟨_, ⟨⟩⟩ := Option.ite_none_right_eq_some.mp stepped
      change Counted start (if (readLockOrRestart state.word false).2 = true then state
        else state.setLocking caller (some state.word))
      split_ifs with restart
      · exact counted
      · refine counted.setLocking caller fun version isVersion => ?_
        cases isVersion
        exact readable_of_readLock (Bool.eq_false_iff.mpr restart)
  | writeLockUpgrade caller =>
      obtain ⟨version, isLocking, rfl⟩ := Option.map_eq_some_iff.mp stepped
      exact (counted.upgrade caller (counted.locking caller version isLocking)).setLocking
        caller (fun _ isVersion => by cases isVersion)
  | writeUnlock caller =>
      obtain ⟨⟨_, held⟩, ⟨⟩⟩ := Option.ite_none_right_eq_some.mp stepped
      exact counted.unlock held
  | check caller startRead =>
      obtain ⟨_, ⟨⟩⟩ := Option.ite_none_right_eq_some.mp stepped
      exact counted

end Counted

theorem counted_initial (free : Free start) :
    Counted start (initial start : State thread) where
  free := free
  word := (Nat.mod_eq_of_lt free.word).symm
  holder := .inl ⟨rfl, fun _ => rfl⟩
  versions := by simp [initial]
  locking := by simp [initial]

theorem counted_of_run {before after : State thread} (counted : Counted start before)
    (ran : Run GivesUp before after) : Counted start after :=
  ran.invariant (Counted start) counted fun _ _ _ isCounted givesUp stepped =>
    isCounted.step givesUp stepped

/-! ## Sections and clean readings -/

theorem step_counts {before after : State thread} {taken : Act thread}
    (stepped : before.step taken = some after) :
    before.begun ≤ after.begun ∧ before.ended ≤ after.ended := by
  cases taken with
  | readLock caller =>
      obtain ⟨_, ⟨⟩⟩ := Option.ite_none_right_eq_some.mp stepped
      split_ifs
      · exact ⟨le_rfl, le_rfl⟩
      · exact ⟨le_rfl, le_rfl⟩
  | upgrade caller version =>
      obtain ⟨_, ⟨⟩⟩ := Option.ite_none_right_eq_some.mp stepped
      exact before.upgrade_counts caller version
  | writeLock caller =>
      obtain ⟨_, ⟨⟩⟩ := Option.ite_none_right_eq_some.mp stepped
      split_ifs
      · exact ⟨le_rfl, le_rfl⟩
      · exact ⟨le_rfl, le_rfl⟩
  | writeLockUpgrade caller =>
      obtain ⟨version, _, rfl⟩ := Option.map_eq_some_iff.mp stepped
      exact before.upgrade_counts caller version
  | writeUnlock caller =>
      obtain ⟨_, ⟨⟩⟩ := Option.ite_none_right_eq_some.mp stepped
      exact ⟨le_rfl, Nat.le_succ _⟩
  | check caller startRead =>
      obtain ⟨_, ⟨⟩⟩ := Option.ite_none_right_eq_some.mp stepped
      exact ⟨le_rfl, le_rfl⟩

theorem run_counts {allowed : State thread → Act thread → Prop}
    {before after : State thread} (ran : Run allowed before after) :
    before.begun ≤ after.begun ∧ before.ended ≤ after.ended :=
  ran.invariant (fun state => before.begun ≤ state.begun ∧ before.ended ≤ state.ended)
    ⟨le_rfl, le_rfl⟩ fun _ _ _ sofar _ stepped =>
      ⟨sofar.1.trans (step_counts stepped).1, sofar.2.trans (step_counts stepped).2⟩

/-- Nothing has begun or ended between two states with the same word, if there are
fewer than `2 ^ 62` write sections. -/
theorem same_word_same_counts {before after : State thread}
    (counted : Counted start before) (ran : Run GivesUp before after) (few : after.begun < 2 ^ 62)
    (same : before.word = after.word) :
    after.begun = before.begun ∧ after.ended = before.ended := by
  have countedAfter := counted_of_run counted ran
  obtain ⟨begunLe, endedLe⟩ := run_counts ran
  have closed : after.ended ≤ after.begun := by
    rcases countedAfter.holder with ⟨_, _⟩ | ⟨_, _⟩
    · omega
    · omega
  rw [counted.word, countedAfter.word] at same
  have sameCount := wordAfter_inj (by omega) (by omega) same
  omega

/-- What the lock promises in the runs whose steps are allowed: mutual exclusion, a lock
bit that shows whether it is held, and clean readings without a write section. -/
structure Guards (thread : Type) [DecidableEq thread] (start : Version)
    (allowed : State thread → Act thread → Prop) : Prop where
  exclusive : ∀ reached : State thread, Run allowed (initial start) reached →
    ∀ first second, reached.holds first = true → reached.holds second = true →
      first = second
  lockBit : ∀ reached : State thread, Run allowed (initial start) reached →
    (isLocked reached.word = true ↔ ∃ caller, reached.holds caller = true)
  /-- From a reading that requests no restart to a check that requests none, nobody
  holds the lock, and no write section begins or ends. -/
  cleanReading : ∀ read middle checked : State thread, ∀ version,
    Run allowed (initial start) read →
    readLockOrRestart read.word false = (version, false) →
    Run allowed read middle → Run allowed middle checked → checked.begun < 2 ^ 62 →
    checkOrRestart checked.word version = false →
      middle.begun = read.begun ∧ middle.ended = read.ended ∧
        ∀ caller, middle.holds caller = false

/-- One thread has written, and then another one reads. -/
def written : State Bool := (((initial 4).addVersion true 4).upgrade true 4).unlock true

theorem run_written : Run GivesUp (initial 4) written := by
  have read : Run GivesUp (initial 4) ((initial 4).addVersion true 4) :=
    .next (.readLock true) .start trivial rfl
  have locked := Reaches.next (.upgrade true 4) read List.mem_cons_self rfl
  exact .next (.writeUnlock true) locked trivial rfl

end AhaTree.OptLock
