import Mathlib.Data.List.Basic

/-!
# Cursors

A cursor stands on one of the entries that it walks over, or on none.  It may
jump to either end, to the first entry that is not below a target, and from an
entry to its neighbours.  A list is walked over by its indices; any other cursor
is judged by whether the same moves make it show the same entries.
-/

namespace Lib

structure Cursor (σ item target : Type) where
  current : σ → Option item
  seekToFirst : σ → σ
  seekToLast : σ → σ
  seek : target → σ → σ
  next : σ → σ
  prev : σ → σ

namespace Cursor

variable {σ τ item target : Type}

/-! ## Runs -/

inductive Move (target : Type) where
  | seekToFirst
  | seekToLast
  | seek (sought : target)
  | next
  | prev
  deriving DecidableEq, Repr

/-- From no entry there is neither a next nor a previous one. -/
def move (cursor : Cursor σ item target) : Move target → σ → Option σ
  | .seekToFirst, state => some (cursor.seekToFirst state)
  | .seekToLast, state => some (cursor.seekToLast state)
  | .seek sought, state => some (cursor.seek sought state)
  | .next, state => if (cursor.current state).isSome then some (cursor.next state) else none
  | .prev, state => if (cursor.current state).isSome then some (cursor.prev state) else none

/-- What the cursor shows after each of the moves. -/
def shows (cursor : Cursor σ item target) : List (Move target) → σ → Option (List (Option item))
  | [], _ => some []
  | taken :: moves, state =>
      (cursor.move taken state).bind fun after =>
        (cursor.shows moves after).map (cursor.current after :: ·)

/-- The states of two cursors that the same moves keep together. -/
structure Simulates (low : Cursor σ item target) (high : Cursor τ item target)
    (related : σ → τ → Prop) : Prop where
  current : ∀ {lower upper}, related lower upper → low.current lower = high.current upper
  seekToFirst : ∀ {lower upper}, related lower upper →
    related (low.seekToFirst lower) (high.seekToFirst upper)
  seekToLast : ∀ {lower upper}, related lower upper →
    related (low.seekToLast lower) (high.seekToLast upper)
  seek : ∀ {lower upper} (sought : target), related lower upper →
    related (low.seek sought lower) (high.seek sought upper)
  next : ∀ {lower upper}, related lower upper → (high.current upper).isSome →
    related (low.next lower) (high.next upper)
  prev : ∀ {lower upper}, related lower upper → (high.current upper).isSome →
    related (low.prev lower) (high.prev upper)

namespace Simulates

variable {low : Cursor σ item target} {high : Cursor τ item target} {related : σ → τ → Prop}

theorem move (simulates : Simulates low high related) {lower : σ} {upper : τ}
    (standing : related lower upper) (taken : Move target) :
    (low.move taken lower = none ∧ high.move taken upper = none) ∨
      ∃ after later, low.move taken lower = some after ∧ high.move taken upper = some later ∧
        related after later := by
  have same := simulates.current standing
  cases taken with
  | seekToFirst => exact .inr ⟨_, _, rfl, rfl, simulates.seekToFirst standing⟩
  | seekToLast => exact .inr ⟨_, _, rfl, rfl, simulates.seekToLast standing⟩
  | seek sought => exact .inr ⟨_, _, rfl, rfl, simulates.seek sought standing⟩
  | next =>
      by_cases shown : (high.current upper).isSome
      · refine .inr ⟨_, _, ?_, if_pos shown, simulates.next standing shown⟩
        exact if_pos (by rwa [same])
      · exact .inl ⟨if_neg (by rwa [same]), if_neg shown⟩
  | prev =>
      by_cases shown : (high.current upper).isSome
      · refine .inr ⟨_, _, ?_, if_pos shown, simulates.prev standing shown⟩
        exact if_pos (by rwa [same])
      · exact .inl ⟨if_neg (by rwa [same]), if_neg shown⟩

/-- Related cursors show the same, however they are moved. -/
theorem shows (simulates : Simulates low high related) {lower : σ} {upper : τ}
    (standing : related lower upper) (moves : List (Move target)) :
    low.shows moves lower = high.shows moves upper := by
  induction moves generalizing lower upper with
  | nil => rfl
  | cons taken moves ih =>
      rw [Cursor.shows, Cursor.shows]
      rcases simulates.move standing taken with
        ⟨stuck, stuckToo⟩ | ⟨after, later, moved, movedToo, stillStanding⟩
      · rw [stuck, stuckToo]
        rfl
      · rw [moved, movedToo, Option.bind_some, Option.bind_some, ih stillStanding,
          simulates.current stillStanding]

end Simulates

/-! ## Walking over a list -/

/-- The place, if it is one. -/
def place (entries : List item) (index : Nat) : Option Nat :=
  if index < entries.length then some index else none

/-- The place in front of an index. -/
def before : Nat → Option Nat
  | 0 => none
  | index + 1 => some index

def onList (entries : List item) (below : target → item → Bool) :
    Cursor (Option Nat) item target where
  current standing := standing.bind (entries[·]?)
  seekToFirst _ := place entries 0
  seekToLast _ := before entries.length
  seek sought _ := place entries (entries.findIdx fun entry => !below sought entry)
  next standing := standing.bind fun index => place entries (index + 1)
  prev standing := standing.bind before

/-- The cursor shows the entries of the list; in `standing` it stands on the given place. -/
abbrev Walks (cursor : Cursor σ item target) (entries : List item)
    (below : target → item → Bool) (stands : σ → Option Nat → Prop) : Prop :=
  Simulates cursor (onList entries below) stands

theorem place_of_lt {entries : List item} {index : Nat} (inside : index < entries.length) :
    place entries index = some index :=
  if_pos inside

theorem place_of_ge {entries : List item} {index : Nat} (outside : entries.length ≤ index) :
    place entries index = none :=
  if_neg (Nat.not_lt.mpr outside)

theorem Walks.current_seekToFirst {cursor : Cursor σ item target} {entries : List item}
    {below : target → item → Bool} {stands : σ → Option Nat → Prop}
    (walks : Walks cursor entries below stands) {state : σ} {standing : Option Nat}
    (isStanding : stands state standing) :
    cursor.current (cursor.seekToFirst state) = entries.head? := by
  rw [walks.current (walks.seekToFirst isStanding), List.head?_eq_getElem?]
  change (place entries 0).bind (entries[·]?) = entries[0]?
  cases entries with
  | nil => rfl
  | cons entry entries => rfl

/-- Take every entry from here on; the fuel bounds their number. -/
def forward {acc : Type} (cursor : Cursor σ item target) (take : acc → item → acc) :
    Nat → σ → acc → acc
  | 0, _, taken => taken
  | fuel + 1, state, taken =>
      match cursor.current state with
      | some entry => cursor.forward take fuel (cursor.next state) (take taken entry)
      | none => taken

theorem Walks.forward {acc : Type} {cursor : Cursor σ item target} {entries : List item}
    {below : target → item → Bool} {stands : σ → Option Nat → Prop}
    (walks : Walks cursor entries below stands) (take : acc → item → acc) (taken : acc)
    {fuel index : Nat} {state : σ} (standing : stands state (place entries index))
    (enough : entries.length < fuel + index) :
    cursor.forward take fuel state taken = (entries.drop index).foldl take taken := by
  induction fuel generalizing index state taken with
  | zero =>
      rw [List.drop_eq_nil_of_le (by omega)]
      rfl
  | succ fuel ih =>
      have shown := walks.current standing
      by_cases inside : index < entries.length
      · rw [place_of_lt inside] at shown standing
        have isEntry : cursor.current state = some entries[index] :=
          shown.trans (List.getElem?_eq_getElem inside)
        have moved := walks.next standing (by
          rw [← shown, isEntry]
          rfl)
        rw [Cursor.forward, isEntry, List.drop_eq_getElem_cons inside, List.foldl_cons]
        exact ih _ moved (by omega)
      · rw [place_of_ge (Nat.not_lt.mp inside)] at shown
        rw [Cursor.forward, shown, List.drop_eq_nil_of_le (Nat.not_lt.mp inside)]
        rfl

/-- The cursor that shows the entries in another form, and understands other targets. -/
def mapped {shown sought : Type} (cursor : Cursor σ item target) (read : item → shown)
    (meant : sought → target) : Cursor σ shown sought where
  current state := (cursor.current state).map read
  seekToFirst := cursor.seekToFirst
  seekToLast := cursor.seekToLast
  seek wanted := cursor.seek (meant wanted)
  next := cursor.next
  prev := cursor.prev

theorem findIdx_congr {entries : List item} {wanted other : item → Bool}
    (agrees : ∀ entry ∈ entries, wanted entry = other entry) :
    entries.findIdx wanted = entries.findIdx other := by
  induction entries with
  | nil => rfl
  | cons entry entries ih =>
      rw [List.findIdx_cons, List.findIdx_cons, agrees entry List.mem_cons_self,
        ih fun later member => agrees later (List.mem_cons_of_mem entry member)]

theorem Walks.mapped {shown sought : Type} {cursor : Cursor σ item target} {entries : List item}
    {below : target → item → Bool} {belowToo : sought → shown → Bool}
    {stands : σ → Option Nat → Prop} {read : item → shown} {meant : sought → target}
    (walks : Walks cursor entries below stands)
    (agrees : ∀ wanted, ∀ entry ∈ entries,
      belowToo wanted (read entry) = below (meant wanted) entry) :
    Walks (cursor.mapped read meant) (entries.map read) belowToo stands := by
  have samePlace : ∀ index, place (entries.map read) index = place entries index := by
    intro index
    rw [place, place, List.length_map]
  have sameEntry : ∀ {state standing}, stands state standing →
      (cursor.mapped read meant).current state =
        (onList (entries.map read) belowToo).current standing := by
    intro state standing isStanding
    change (cursor.current state).map read = standing.bind ((entries.map read)[·]?)
    rw [walks.current isStanding]
    cases standing with
    | none => rfl
    | some index => exact (List.getElem?_map ..).symm
  have shownToo : ∀ {standing}, ((onList (entries.map read) belowToo).current standing).isSome →
      ((onList entries below).current standing).isSome := by
    intro standing isShown
    cases standing with
    | none => cases isShown
    | some index =>
        change ((entries.map read)[index]?).isSome at isShown
        rwa [List.getElem?_map, Option.isSome_map] at isShown
  refine ⟨sameEntry, ?_, ?_, ?_, ?_, ?_⟩
  · intro state standing isStanding
    have moved := walks.seekToFirst isStanding
    change stands _ (place (entries.map read) 0)
    rw [samePlace]
    exact moved
  · intro state standing isStanding
    have moved := walks.seekToLast isStanding
    change stands _ (before (entries.map read).length)
    rw [List.length_map]
    exact moved
  · intro state standing wanted isStanding
    have moved := walks.seek (meant wanted) isStanding
    have sameIndex : ((entries.map read).findIdx fun entry => !belowToo wanted entry) =
        entries.findIdx fun entry => !below (meant wanted) entry := by
      rw [List.findIdx_map]
      apply findIdx_congr
      intro entry member
      exact congrArg (!·) (agrees wanted entry member)
    change stands _ (place (entries.map read) _)
    rw [samePlace, sameIndex]
    exact moved
  · intro state standing isStanding isShown
    have moved := walks.next isStanding (shownToo isShown)
    change stands _ (standing.bind fun index => place (entries.map read) (index + 1))
    simp only [samePlace]
    exact moved
  · intro state standing isStanding isShown
    exact walks.prev isStanding (shownToo isShown)

theorem findIdx_of_split {entries : List item} {below : item → Bool} {index : Nat}
    (within : index ≤ entries.length)
    (inFront : ∀ earlier entry, earlier < index → entries[earlier]? = some entry →
      below entry = true)
    (behind : ∀ entry, entries[index]? = some entry → below entry = false) :
    (entries.findIdx fun entry => !below entry) = index := by
  rcases Nat.lt_or_eq_of_le within with inside | rfl
  · rw [List.findIdx_eq inside]
    refine ⟨?_, ?_⟩
    · rw [behind _ (List.getElem?_eq_getElem inside)]
      rfl
    · intro earlier less
      rw [inFront earlier _ less (List.getElem?_eq_getElem (by omega))]
      decide
  · rw [List.findIdx_eq_length]
    intro entry member
    obtain ⟨earlier, less, rfl⟩ := List.getElem_of_mem member
    rw [inFront earlier _ less (List.getElem?_eq_getElem less)]
    rfl

end Cursor

end Lib
