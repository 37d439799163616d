import AhaTree.Lib.Cursor
import AhaTree.Lib.Segments

/-!
# Iterators over two levels

The model of `two_level_iterator.cc`.  An iterator over an index yields handles,
and a block function makes an iterator over the block of a handle.  Together they
walk over the entries of all blocks, also when some blocks are empty.
-/

namespace AhaTree

open Lib (Cursor offset offset_zero offset_length offset_succ flatten_split getElem?_offset)

namespace TwoLevelIterator

variable {σ δ key handle item target error : Type}

/-- `index_iter_` and `data_iter_`, with the handle that the data iterator was made from. -/
structure State (σ δ handle error : Type) where
  indexIter : σ
  dataIter : Option (handle × δ)
  saved : Option error
  deriving DecidableEq, Repr

end TwoLevelIterator

structure TwoLevelIterator (σ δ key handle item target error : Type) where
  index : Cursor σ (key × handle) target
  data : Cursor δ item target
  blockFunction : handle → δ
  indexStatus : σ → Option error
  dataStatus : δ → Option error

namespace TwoLevelIterator

variable {σ δ key handle item target error : Type}

def newIterator (indexIter : σ) : State σ δ handle error where
  indexIter := indexIter
  dataIter := none
  saved := none

def setDataIterator (levels : TwoLevelIterator σ δ key handle item target error)
    (state : State σ δ handle error) (dataIter : Option (handle × δ)) :
    State σ δ handle error :=
  { state with
    dataIter := dataIter
    saved := state.saved.or (state.dataIter.bind fun made => levels.dataStatus made.2) }

def status (levels : TwoLevelIterator σ δ key handle item target error)
    (state : State σ δ handle error) : Option error :=
  ((levels.indexStatus state.indexIter).or
    (state.dataIter.bind fun made => levels.dataStatus made.2)).or state.saved

section Moves

variable [DecidableEq handle]

def initDataBlock (levels : TwoLevelIterator σ δ key handle item target error)
    (state : State σ δ handle error) : State σ δ handle error :=
  match levels.index.current state.indexIter with
  | none => levels.setDataIterator state none
  | some (_, sought) =>
      if state.dataIter.map Prod.fst = some sought then state
      else levels.setDataIterator state (some (sought, levels.blockFunction sought))

/-- A move of the data iterator, if there is one. -/
def State.moveData (move : δ → δ) (state : State σ δ handle error) : State σ δ handle error :=
  { state with dataIter := state.dataIter.map fun made => (made.1, move made.2) }

/-- The entry under the data iterator. -/
def current (levels : TwoLevelIterator σ δ key handle item target error)
    (state : State σ δ handle error) : Option item :=
  state.dataIter.bind fun made => levels.data.current made.2

def skipEmptyDataBlocksForward (levels : TwoLevelIterator σ δ key handle item target error) :
    Nat → State σ δ handle error → State σ δ handle error
  | 0, state => state
  | fuel + 1, state =>
      if (levels.current state).isSome then state
      else if (levels.index.current state.indexIter).isSome then
        levels.skipEmptyDataBlocksForward fuel
          ((levels.initDataBlock { state with indexIter := levels.index.next state.indexIter
            }).moveData levels.data.seekToFirst)
      else levels.setDataIterator state none

def skipEmptyDataBlocksBackward (levels : TwoLevelIterator σ δ key handle item target error) :
    Nat → State σ δ handle error → State σ δ handle error
  | 0, state => state
  | fuel + 1, state =>
      if (levels.current state).isSome then state
      else if (levels.index.current state.indexIter).isSome then
        levels.skipEmptyDataBlocksBackward fuel
          ((levels.initDataBlock { state with indexIter := levels.index.prev state.indexIter
            }).moveData levels.data.seekToLast)
      else levels.setDataIterator state none

/-- The loops over empty blocks take `fuel` turns at most. -/
def cursor (levels : TwoLevelIterator σ δ key handle item target error) (fuel : Nat) :
    Cursor (State σ δ handle error) item target where
  current := levels.current
  seek sought state :=
    levels.skipEmptyDataBlocksForward fuel
      ((levels.initDataBlock { state with indexIter := levels.index.seek sought state.indexIter
        }).moveData (levels.data.seek sought))
  seekToFirst state :=
    levels.skipEmptyDataBlocksForward fuel
      ((levels.initDataBlock { state with indexIter := levels.index.seekToFirst state.indexIter
        }).moveData levels.data.seekToFirst)
  seekToLast state :=
    levels.skipEmptyDataBlocksBackward fuel
      ((levels.initDataBlock { state with indexIter := levels.index.seekToLast state.indexIter
        }).moveData levels.data.seekToLast)
  next state := levels.skipEmptyDataBlocksForward fuel (state.moveData levels.data.next)
  prev state := levels.skipEmptyDataBlocksBackward fuel (state.moveData levels.data.prev)

end Moves

/-! ## Walking over all blocks -/

/-- The index points to the blocks, and its keys separate them. -/
structure Spans (levels : TwoLevelIterator σ δ key handle item target error)
    (handles : List (key × handle)) (blocks : List (List item))
    (indexBelow : target → key × handle → Bool) (below : target → item → Bool)
    (indexStands : σ → Option Nat → Prop) (dataStands : Nat → δ → Option Nat → Prop) :
    Prop where
  sameLength : blocks.length = handles.length
  index : Cursor.Walks levels.index handles indexBelow indexStands
  data : ∀ {number block}, blocks[number]? = some block →
    Cursor.Walks levels.data block below (dataStands number)
  opens : ∀ {number entry}, handles[number]? = some entry →
    dataStands number (levels.blockFunction entry.2) none
  distinct : ∀ {number other : Nat} {entry otherEntry : key × handle},
    handles[number]? = some entry →
    handles[other]? = some otherEntry → entry.2 = otherEntry.2 → number = other
  upTo : ∀ {number : Nat} {entry block inner sought}, handles[number]? = some entry →
    blocks[number]? = some block → inner ∈ block → indexBelow sought entry = true →
    below sought inner = true
  beyond : ∀ {number later : Nat} {entry block inner sought}, handles[number]? = some entry →
    number < later → blocks[later]? = some block → inner ∈ block →
    indexBelow sought entry = false → below sought inner = false

namespace Spans

variable {levels : TwoLevelIterator σ δ key handle item target error}
  {handles : List (key × handle)} {blocks : List (List item)}
  {indexBelow : target → key × handle → Bool} {below : target → item → Bool}
  {indexStands : σ → Option Nat → Prop} {dataStands : Nat → δ → Option Nat → Prop}

/-- The data iterator, if there is one, walks over the block of its handle. -/
def Opened (handles : List (key × handle)) (dataStands : Nat → δ → Option Nat → Prop)
    (dataIter : Option (handle × δ)) : Prop :=
  ∀ made, dataIter = some made → ∃ number entry within,
    handles[number]? = some entry ∧ entry.2 = made.1 ∧ dataStands number made.2 within

/-- Both iterators stand in one block. -/
structure InBlock (handles : List (key × handle)) (indexStands : σ → Option Nat → Prop)
    (dataStands : Nat → δ → Option Nat → Prop) (state : State σ δ handle error)
    (number : Nat) (within : Option Nat) : Prop where
  index : indexStands state.indexIter (some number)
  data : ∃ entry made, handles[number]? = some entry ∧ state.dataIter = some (entry.2, made) ∧
    dataStands number made within

def Stands (handles : List (key × handle)) (blocks : List (List item))
    (indexStands : σ → Option Nat → Prop) (dataStands : Nat → δ → Option Nat → Prop)
    (state : State σ δ handle error) : Option Nat → Prop
  | none => state.dataIter = none ∧ ∃ number, indexStands state.indexIter number
  | some index => ∃ number block within, blocks[number]? = some block ∧ within < block.length ∧
      index = offset blocks number + within ∧
      InBlock handles indexStands dataStands state number (some within)

theorem InBlock.opened {state : State σ δ handle error} {number : Nat} {within : Option Nat}
    (inBlock : InBlock handles indexStands dataStands state number within) :
    Opened handles dataStands state.dataIter := by
  obtain ⟨entry, made, found, data, stands⟩ := inBlock.data
  intro other same
  rw [data] at same
  cases same
  exact ⟨number, entry, within, found, rfl, stands⟩

theorem InBlock.index_lt {state : State σ δ handle error} {number : Nat} {within : Option Nat}
    (inBlock : InBlock handles indexStands dataStands state number within) :
    number < handles.length := by
  obtain ⟨entry, _, found, _⟩ := inBlock.data
  exact (List.getElem?_eq_some_iff.mp found).1

theorem InBlock.moveData {state : State σ δ handle error} {number : Nat}
    {within after : Option Nat} {move : δ → δ}
    (inBlock : InBlock handles indexStands dataStands state number within)
    (moves : ∀ {made}, dataStands number made within → dataStands number (move made) after) :
    InBlock handles indexStands dataStands (state.moveData move) number after := by
  obtain ⟨entry, made, found, data, stands⟩ := inBlock.data
  refine ⟨inBlock.index, entry, move made, found, ?_, moves stands⟩
  simp only [State.moveData, data, Option.map_some]

theorem Stands.opened {state : State σ δ handle error} {standing : Option Nat}
    (stands : Stands handles blocks indexStands dataStands state standing) :
    Opened handles dataStands state.dataIter ∧ ∃ number, indexStands state.indexIter number := by
  cases standing with
  | none =>
      refine ⟨?_, stands.2⟩
      intro made some
      rw [stands.1] at some
      cases some
  | some index =>
      obtain ⟨number, block, within, found, inside, sum, inBlock⟩ := stands
      exact ⟨inBlock.opened, _, inBlock.index⟩

section Walking

variable (spans : Spans levels handles blocks indexBelow below indexStands dataStands)
include spans

theorem exists_blockAt {number : Nat} (inside : number < handles.length) :
    ∃ block, blocks[number]? = some block :=
  ⟨_, List.getElem?_eq_getElem (spans.sameLength ▸ inside)⟩

theorem current_inBlock {state : State σ δ handle error} {number : Nat} {block : List item}
    {within : Option Nat} (found : blocks[number]? = some block)
    (inBlock : InBlock handles indexStands dataStands state number within) :
    levels.current state = within.bind (block[·]?) := by
  obtain ⟨entry, made, _, data, stands⟩ := inBlock.data
  rw [current, data]
  exact (spans.data found).current stands

theorem indexCurrent_isSome {state : State σ δ handle error} {number : Nat} {within : Option Nat}
    (inBlock : InBlock handles indexStands dataStands state number within) :
    (levels.index.current state.indexIter).isSome := by
  rw [spans.index.current inBlock.index]
  exact Option.isSome_iff_exists.mpr ⟨_, List.getElem?_eq_getElem inBlock.index_lt⟩

theorem below_of_front {sought : target} {count : Nat} {inner : item}
    (front : ∀ number entry, number < count → handles[number]? = some entry →
      indexBelow sought entry = true)
    (member : inner ∈ (blocks.take count).flatten) : below sought inner = true := by
  obtain ⟨block, blockMember, inBlock⟩ := List.mem_flatten.mp member
  obtain ⟨number, inside, rfl⟩ := List.getElem_of_mem blockMember
  rw [List.length_take, spans.sameLength] at inside
  have found : handles[number]? = some handles[number] := List.getElem?_eq_getElem (by omega)
  have foundBlock : blocks[number]? = some (blocks.take count)[number] := by
    rw [List.getElem_take]
    exact List.getElem?_eq_getElem _
  exact spans.upTo found foundBlock inBlock (front number _ (by omega) found)

theorem notBelow_of_back {sought : target} {number : Nat} {entry : key × handle} {inner : item}
    (found : handles[number]? = some entry) (notBelow : indexBelow sought entry = false)
    (member : inner ∈ (blocks.drop (number + 1)).flatten) : below sought inner = false := by
  obtain ⟨block, blockMember, inBlock⟩ := List.mem_flatten.mp member
  obtain ⟨after, inside, rfl⟩ := List.getElem_of_mem blockMember
  rw [List.length_drop] at inside
  have foundBlock : blocks[number + 1 + after]? = some (blocks.drop (number + 1))[after] := by
    rw [List.getElem_drop]
    exact List.getElem?_eq_getElem _
  exact spans.beyond found (by omega) foundBlock inBlock notBelow

theorem findIdx_front {sought : target} {count : Nat}
    (front : ∀ number entry, number < count → handles[number]? = some entry →
      indexBelow sought entry = true) :
    ((blocks.take count).flatten.findIdx fun entry => !below sought entry) =
      offset blocks count := by
  apply List.findIdx_eq_length.mpr
  intro inner member
  rw [spans.below_of_front front member]
  rfl

/-- The first entry that is not below the target stands in the first block whose key in the
index is not below it, or behind that block. -/
theorem findIdx_flatten {sought : target} {number : Nat} {entry : key × handle}
    {block : List item} (found : blocks[number]? = some block)
    (foundEntry : handles[number]? = some entry) (notBelow : indexBelow sought entry = false)
    (front : ∀ number' entry, number' < number → handles[number']? = some entry →
      indexBelow sought entry = true) :
    (blocks.flatten.findIdx fun entry => !below sought entry) =
      offset blocks number + block.findIdx fun entry => !below sought entry := by
  have back :
      ((blocks.drop (number + 1)).flatten.findIdx fun entry => !below sought entry) = 0 := by
    cases rest : (blocks.drop (number + 1)).flatten with
    | nil => rfl
    | cons inner inners =>
        have first := spans.notBelow_of_back foundEntry notBelow
          (rest ▸ List.mem_cons_self : inner ∈ _)
        rw [List.findIdx_cons, first]
        rfl
  have ends : (block.findIdx fun entry => !below sought entry) ≤ block.length :=
    List.findIdx_le_length
  rw [flatten_split found, List.findIdx_append, spans.findIdx_front front, ← offset,
    if_neg (Nat.lt_irrefl _), List.findIdx_append, back]
  split
  · omega
  · omega

variable [DecidableEq handle]

theorem initDataBlock_none (state : State σ δ handle error)
    (index : indexStands state.indexIter none) :
    levels.initDataBlock state = levels.setDataIterator state none := by
  have shown := spans.index.current index
  rw [initDataBlock, shown]
  rfl

theorem initDataBlock_inBlock (state : State σ δ handle error) {number : Nat}
    (opened : Opened handles dataStands state.dataIter) (inside : number < handles.length)
    (index : indexStands state.indexIter (some number)) :
    ∃ within,
      InBlock handles indexStands dataStands (levels.initDataBlock state) number within := by
  have found := List.getElem?_eq_getElem inside
  have shown : levels.index.current state.indexIter = some handles[number] :=
    (spans.index.current index).trans found
  rw [initDataBlock, shown]
  dsimp only
  split
  · rename_i same
    obtain ⟨made, data, isHandle⟩ := Option.map_eq_some_iff.mp same
    obtain ⟨other, entry, within, foundEntry, entryHandle, stands⟩ := opened made data
    obtain rfl := spans.distinct found foundEntry (isHandle.symm.trans entryHandle.symm)
    refine ⟨within, index, _, made.2, found, ?_, stands⟩
    rw [data, ← isHandle]
  · exact ⟨none, index, _, _, found, rfl, spans.opens found⟩

/-- Behind the last block and in front of the first one there is no data iterator, and both
loops stop. -/
theorem ended_stands {state : State σ δ handle error} {fuel : Nat} {move : δ → δ}
    (some : 0 < fuel) (index : indexStands state.indexIter none) :
    Stands handles blocks indexStands dataStands
        (levels.skipEmptyDataBlocksForward fuel ((levels.initDataBlock state).moveData move))
        none ∧
      Stands handles blocks indexStands dataStands
        (levels.skipEmptyDataBlocksBackward fuel ((levels.initDataBlock state).moveData move))
        none := by
  obtain ⟨rest, rfl⟩ := Nat.exists_eq_add_one.mpr some
  have shown := spans.index.current index
  rw [spans.initDataBlock_none state index]
  constructor
  · simp only [skipEmptyDataBlocksForward, State.moveData, setDataIterator, current, shown,
      Option.map_none, Option.bind_none, Cursor.onList, Option.isSome_none, Bool.false_eq_true,
      if_false]
    exact ⟨rfl, none, index⟩
  · simp only [skipEmptyDataBlocksBackward, State.moveData, setDataIterator, current, shown,
      Option.map_none, Option.bind_none, Cursor.onList, Option.isSome_none, Bool.false_eq_true,
      if_false]
    exact ⟨rfl, none, index⟩

/-- The loop moves to the first entry that is not in front of the data iterator. -/
theorem forward_stands {fuel : Nat} {state : State σ δ handle error} {number within : Nat}
    {block : List item} (enough : handles.length < number + fuel)
    (found : blocks[number]? = some block) (inside : within ≤ block.length)
    (inBlock : InBlock handles indexStands dataStands state number
      (Cursor.place block within)) :
    Stands handles blocks indexStands dataStands (levels.skipEmptyDataBlocksForward fuel state)
      (Cursor.place blocks.flatten (offset blocks number + within)) := by
  induction fuel generalizing state number within block with
  | zero => exact absurd inBlock.index_lt (by omega)
  | succ fuel ih =>
      have numberInside := inBlock.index_lt
      have current := spans.current_inBlock found inBlock
      rw [skipEmptyDataBlocksForward]
      rcases Nat.lt_or_eq_of_le inside with here | rfl
      · rw [Cursor.place_of_lt here] at inBlock current
        rw [current, Option.bind_some, List.getElem?_eq_getElem here, Option.isSome_some,
          if_pos rfl, Cursor.place_offset found here]
        exact ⟨number, block, within, found, here, rfl, inBlock⟩
      · rw [Cursor.place_of_ge (Nat.le_refl _)] at inBlock current
        rw [current, Option.bind_none, Option.isSome_none, if_neg Bool.false_ne_true,
          if_pos (spans.indexCurrent_isSome inBlock), ← offset_succ found]
        have moved := spans.index.next inBlock.index (by
          exact Option.isSome_iff_exists.mpr ⟨_, List.getElem?_eq_getElem numberInside⟩)
        by_cases more : number + 1 < handles.length
        · obtain ⟨nextBlock, foundNext⟩ := spans.exists_blockAt more
          obtain ⟨standing, initial⟩ := spans.initDataBlock_inBlock
            { state with indexIter := levels.index.next state.indexIter } inBlock.opened more
              (Cursor.place_of_lt more ▸ moved)
          exact ih (by omega) foundNext (Nat.zero_le _)
            (initial.moveData fun stands => (spans.data foundNext).seekToFirst stands)
        · have last : number + 1 = blocks.length := by
            rw [spans.sameLength]
            omega
          have ended : indexStands (levels.index.next state.indexIter) none :=
            Cursor.place_of_ge (Nat.not_lt.mp more) ▸ moved
          rw [last, offset_length, Cursor.place_of_ge (Nat.le_refl _)]
          exact (spans.ended_stands (by omega) ended).1

/-- The loop moves to the last entry in front of the data iterator. -/
theorem backward_stands {fuel : Nat} {state : State σ δ handle error} {number within : Nat}
    {block : List item} (enough : number + 1 < fuel)
    (found : blocks[number]? = some block) (inside : within ≤ block.length)
    (inBlock : InBlock handles indexStands dataStands state number (Cursor.before within)) :
    Stands handles blocks indexStands dataStands (levels.skipEmptyDataBlocksBackward fuel state)
      (Cursor.before (offset blocks number + within)) := by
  induction fuel generalizing state number within block with
  | zero => exact absurd enough (Nat.not_lt_zero _)
  | succ fuel ih =>
      have current := spans.current_inBlock found inBlock
      rw [skipEmptyDataBlocksBackward]
      cases within with
      | succ within =>
          have here : within < block.length := inside
          rw [current, Cursor.before, Option.bind_some, List.getElem?_eq_getElem here,
            Option.isSome_some, if_pos rfl, ← Nat.add_assoc, Cursor.before]
          exact ⟨number, block, within, found, here, rfl, inBlock⟩
      | zero =>
          rw [current, Cursor.before, Option.bind_none, Option.isSome_none,
            if_neg Bool.false_ne_true, if_pos (spans.indexCurrent_isSome inBlock)]
          have moved := spans.index.prev inBlock.index (by
            exact Option.isSome_iff_exists.mpr ⟨_, List.getElem?_eq_getElem inBlock.index_lt⟩)
          cases number with
          | zero =>
              have ended : indexStands (levels.index.prev state.indexIter) none := moved
              exact (spans.ended_stands (by omega) ended).2
          | succ number =>
              have inFront : number < handles.length := Nat.lt_of_succ_lt inBlock.index_lt
              obtain ⟨previous, foundPrevious⟩ := spans.exists_blockAt inFront
              obtain ⟨standing, initial⟩ := spans.initDataBlock_inBlock
                { state with indexIter := levels.index.prev state.indexIter } inBlock.opened
                inFront moved
              rw [Nat.add_zero, offset_succ foundPrevious]
              exact ih (by omega) foundPrevious (Nat.le_refl _)
                (initial.moveData fun stands => (spans.data foundPrevious).seekToLast stands)

/-- Two levels walk over the entries of all blocks. -/
theorem walks {fuel : Nat} (enough : handles.length + 1 < fuel) :
    Cursor.Walks (levels.cursor fuel) blocks.flatten below
      (Stands handles blocks indexStands dataStands) where
  current := by
    intro state standing stands
    cases standing with
    | none =>
        change (state.dataIter.bind fun made => levels.data.current made.2) = none
        rw [stands.1, Option.bind_none]
    | some index =>
        obtain ⟨number, block, within, found, inside, rfl, inBlock⟩ := stands
        exact (spans.current_inBlock found inBlock).trans (getElem?_offset found inside).symm
  seekToFirst := by
    intro state standing stands
    obtain ⟨opened, number, index⟩ := stands.opened
    have moved := spans.index.seekToFirst index
    by_cases some : 0 < handles.length
    · obtain ⟨block, found⟩ := spans.exists_blockAt some
      obtain ⟨within, initial⟩ := spans.initDataBlock_inBlock
        { state with indexIter := levels.index.seekToFirst state.indexIter } opened some
        (Cursor.place_of_lt some ▸ moved)
      exact spans.forward_stands (by omega) found (Nat.zero_le _)
        (initial.moveData fun made => (spans.data found).seekToFirst made)
    · have ended : indexStands (levels.index.seekToFirst state.indexIter) none :=
        Cursor.place_of_ge (Nat.not_lt.mp some) ▸ moved
      have noBlocks : blocks = [] := List.length_eq_zero_iff.mp (by rw [spans.sameLength]; omega)
      rw [noBlocks]
      exact (spans.ended_stands (by omega) ended).1
  seekToLast := by
    intro state standing stands
    obtain ⟨opened, number, index⟩ := stands.opened
    have moved := spans.index.seekToLast index
    change Stands handles blocks indexStands dataStands _ (Cursor.before blocks.flatten.length)
    rw [← offset_length, spans.sameLength]
    change indexStands _ (Cursor.before handles.length) at moved
    cases count : handles.length with
    | zero =>
        rw [count] at moved
        exact (spans.ended_stands (by omega) moved).2
    | succ last =>
        have inside : last < handles.length := by omega
        rw [count] at moved
        obtain ⟨block, found⟩ := spans.exists_blockAt inside
        obtain ⟨within, initial⟩ := spans.initDataBlock_inBlock
          { state with indexIter := levels.index.seekToLast state.indexIter } opened inside moved
        rw [offset_succ found]
        exact spans.backward_stands (by omega) found (Nat.le_refl _)
          (initial.moveData fun made => (spans.data found).seekToLast made)
  seek := by
    intro state standing sought stands
    obtain ⟨opened, number, index⟩ := stands.opened
    have moved := spans.index.seek sought index
    change indexStands _ (Cursor.place handles
      (handles.findIdx fun entry => !indexBelow sought entry)) at moved
    have front : ∀ number entry, number < (handles.findIdx fun entry => !indexBelow sought entry) →
        handles[number]? = some entry → indexBelow sought entry = true := by
      intro number entry inFront found
      obtain ⟨inside, rfl⟩ := List.getElem?_eq_some_iff.mp found
      simpa using List.not_of_lt_findIdx inFront
    by_cases some : (handles.findIdx fun entry => !indexBelow sought entry) < handles.length
    · obtain ⟨block, found⟩ := spans.exists_blockAt some
      obtain ⟨within, initial⟩ := spans.initDataBlock_inBlock
        { state with indexIter := levels.index.seek sought state.indexIter } opened some
        (Cursor.place_of_lt some ▸ moved)
      have notBelow := List.findIdx_getElem (w := some)
      change Stands handles blocks indexStands dataStands _
        (Cursor.place blocks.flatten (blocks.flatten.findIdx fun entry => !below sought entry))
      rw [spans.findIdx_flatten found (List.getElem?_eq_getElem some) (by simpa using notBelow)
        front]
      exact spans.forward_stands (by omega) found List.findIdx_le_length
        (initial.moveData fun made => (spans.data found).seek sought made)
    · have ended : indexStands (levels.index.seek sought state.indexIter) none :=
        Cursor.place_of_ge (Nat.not_lt.mp some) ▸ moved
      have count : (handles.findIdx fun entry => !indexBelow sought entry) = blocks.length := by
        rw [spans.sameLength]
        exact Nat.le_antisymm List.findIdx_le_length (Nat.not_lt.mp some)
      have all := spans.findIdx_front front
      rw [count, List.take_length, offset_length] at all
      change Stands handles blocks indexStands dataStands _
        (Cursor.place blocks.flatten (blocks.flatten.findIdx fun entry => !below sought entry))
      rw [all, Cursor.place_of_ge (Nat.le_refl _)]
      exact (spans.ended_stands (by omega) ended).1
  next := by
    intro state standing stands shown
    cases standing with
    | none => cases shown
    | some index =>
        obtain ⟨number, block, within, found, inside, rfl, inBlock⟩ := stands
        have numberInside := inBlock.index_lt
        exact spans.forward_stands (by omega) found inside
          (inBlock.moveData fun made => (spans.data found).next made
            (Option.isSome_iff_exists.mpr ⟨_, List.getElem?_eq_getElem inside⟩))
  prev := by
    intro state standing stands shown
    cases standing with
    | none => cases shown
    | some index =>
        obtain ⟨number, block, within, found, inside, rfl, inBlock⟩ := stands
        have numberInside := inBlock.index_lt
        exact spans.backward_stands (by omega) found (Nat.le_of_lt inside)
          (inBlock.moveData fun made => (spans.data found).prev made
            (Option.isSome_iff_exists.mpr ⟨_, List.getElem?_eq_getElem inside⟩))

end Walking

end Spans

end TwoLevelIterator

end AhaTree
