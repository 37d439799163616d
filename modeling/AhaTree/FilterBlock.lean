import AhaTree.BloomFilter
import AhaTree.Coding
import AhaTree.Lib.Segments

/-!
# Filter blocks

The model of `filter_block.cc`.  The builder makes one filter for every two
kilobytes of the file, from the keys of all blocks that start there; the reader
finds the filter of a block by the offset of the block.  A key that was added
while a block was being built is never denied at the offset of that block.
-/

namespace AhaTree

open Coding
open Lib (offset offset_append offset_length offset_le offset_succ take_drop_offset)

def kFilterBaseLg : Nat := 11

def kFilterBase : Nat := 1 <<< kFilterBaseLg

/-- The keys of the next filter lie one behind the other in `keys`, and start at `start`. -/
structure FilterBlockBuilder where
  keys : Slice
  start : List Nat
  result : Slice
  filterOffsets : List Nat
  deriving DecidableEq, Repr

namespace FilterBlockBuilder

def empty : FilterBlockBuilder where
  keys := []
  start := []
  result := []
  filterOffsets := []

/-- `tmp_keys_`. -/
def tmpKeys (builder : FilterBlockBuilder) : List Slice :=
  let start := builder.start ++ [builder.keys.length]
  (List.range builder.start.length).map fun i =>
    (builder.keys.drop (start.getD i 0)).take (start.getD (i + 1) 0 - start.getD i 0)

variable (policy : FilterPolicy)

def generateFilter (builder : FilterBlockBuilder) : FilterBlockBuilder :=
  if builder.start.length = 0 then
    { builder with filterOffsets := builder.filterOffsets ++ [builder.result.length % 2 ^ 32] }
  else
    { keys := []
      start := []
      result := builder.result ++ policy.createFilter builder.tmpKeys
      filterOffsets := builder.filterOffsets ++ [builder.result.length % 2 ^ 32] }

/-- The loop of `StartBlock`. -/
def generateFilters : Nat → FilterBlockBuilder → FilterBlockBuilder
  | 0, builder => builder
  | count + 1, builder => generateFilters count (builder.generateFilter policy)

def startBlock (blockOffset : Nat) (builder : FilterBlockBuilder) : FilterBlockBuilder :=
  generateFilters policy (blockOffset / kFilterBase - builder.filterOffsets.length) builder

def addKey (key : Slice) (builder : FilterBlockBuilder) : FilterBlockBuilder :=
  { builder with
    start := builder.start ++ [builder.keys.length]
    keys := builder.keys ++ key }

def finish (builder : FilterBlockBuilder) : Slice :=
  let built := if builder.start ≠ [] then builder.generateFilter policy else builder
  built.result ++ (built.filterOffsets.flatMap (encodeFixed 4) ++
    (encodeFixed 4 built.result.length ++ [Fin.ofNat 256 kFilterBaseLg]))

end FilterBlockBuilder

/-- `offset_` is kept as its distance from `data_`. -/
structure FilterBlockReader where
  data : Slice
  offset : Nat
  num : Nat
  baseLg : Nat
  deriving DecidableEq, Repr

namespace FilterBlockReader

def ofContents (contents : Slice) : FilterBlockReader :=
  let n := contents.length
  if n < 5 then ⟨[], 0, 0, 0⟩
  else
    let baseLg := (contents.getD (n - 1) 0).val
    let lastWord := decodeFixed32At contents (n - 5)
    if n - 5 < lastWord then ⟨[], 0, 0, baseLg⟩
    else ⟨contents, lastWord, (n - 5 - lastWord) / 4, baseLg⟩

def keyMayMatch (policy : FilterPolicy) (reader : FilterBlockReader) (blockOffset : Nat)
    (key : Slice) : Bool :=
  let index := blockOffset >>> reader.baseLg
  if index < reader.num then
    let start := decodeFixed32At reader.data (reader.offset + index * 4)
    let limit := decodeFixed32At reader.data (reader.offset + index * 4 + 4)
    if start ≤ limit ∧ limit ≤ reader.offset then
      policy.keyMayMatch key ((reader.data.drop start).take (limit - start))
    else if start = limit then false
    else true
  else true

end FilterBlockReader

/-! ## What the builder holds -/

/-- The offsets of the segments, and of the end. -/
theorem getD_offsets (segments : List Slice) {index : Nat} (inside : index ≤ segments.length) :
    ((List.range segments.length).map (offset segments) ++ [segments.flatten.length]).getD index 0 =
      offset segments index := by
  rcases Nat.lt_or_eq_of_le inside with less | rfl
  · rw [List.getD_append _ _ _ _ (by simpa using less), List.getD_eq_getElem?_getD,
      List.getElem?_map, List.getElem?_range less]
    rfl
  · rw [List.getD_append_right _ _ _ _ (by simp)]
    simp [offset_length]

/-- No filter is created for no keys. -/
def FilterPolicy.filterOf (policy : FilterPolicy) (keys : List Slice) : Slice :=
  if keys = [] then [] else policy.createFilter keys

namespace FilterBlockBuilder

variable {policy : FilterPolicy} {builder : FilterBlockBuilder} {filters : List (List Slice)}
  {pending : List Slice}

/-- The builder has made a filter for each of the first groups of keys, and collects the last
group. -/
structure Holds (policy : FilterPolicy) (builder : FilterBlockBuilder)
    (filters : List (List Slice)) (pending : List Slice) : Prop where
  keys : builder.keys = pending.flatten
  start : builder.start = (List.range pending.length).map (offset pending)
  result : builder.result = (filters.map policy.filterOf).flatten
  filterOffsets : builder.filterOffsets = (List.range filters.length).map fun index =>
    offset (filters.map policy.filterOf) index % 2 ^ 32

theorem empty_holds : empty.Holds policy [] [] where
  keys := rfl
  start := rfl
  result := rfl
  filterOffsets := rfl

theorem addKey_holds (holds : builder.Holds policy filters pending) (key : Slice) :
    (builder.addKey key).Holds policy filters (pending ++ [key]) where
  keys := by
    rw [addKey, holds.keys, List.flatten_append, List.flatten_singleton]
  start := by
    have before : ∀ index ∈ List.range pending.length,
        offset pending index = offset (pending ++ [key]) index := by
      intro index member
      exact (offset_append [key] (List.mem_range.mp member).le).symm
    rw [addKey, holds.start, holds.keys, List.length_append, List.length_singleton,
      List.range_succ, List.map_append, List.map_congr_left before, List.map_singleton,
      offset_append [key] (Nat.le_refl _), offset_length]
  result := holds.result
  filterOffsets := holds.filterOffsets

theorem tmpKeys_eq (holds : builder.Holds policy filters pending) : builder.tmpKeys = pending := by
  have count : builder.start.length = pending.length := by
    rw [holds.start, List.length_map, List.length_range]
  apply List.ext_getElem?
  intro index
  rw [tmpKeys, List.getElem?_map, count]
  by_cases inside : index < pending.length
  · have found := List.getElem?_eq_getElem inside
    have key := take_drop_offset found []
    rw [List.append_nil] at key
    rw [List.getElem?_range inside, Option.map_some, holds.start, holds.keys,
      getD_offsets pending inside.le, getD_offsets pending inside, offset_succ found,
      Nat.add_sub_cancel_left, key, found]
  · rw [List.getElem?_eq_none (by simpa using inside), Option.map_none,
      List.getElem?_eq_none (Nat.not_lt.mp inside)]

theorem generateFilter_holds (holds : builder.Holds policy filters pending) :
    (builder.generateFilter policy).Holds policy (filters ++ [pending]) [] := by
  have before : ∀ index ∈ List.range filters.length,
      offset (filters.map policy.filterOf) index % 2 ^ 32 =
        offset ((filters ++ [pending]).map policy.filterOf) index % 2 ^ 32 := by
    intro index member
    have inside := (List.mem_range.mp member).le
    rw [List.map_append, offset_append _ (by rwa [List.length_map])]
  have offsets : builder.filterOffsets ++ [builder.result.length % 2 ^ 32] =
      (List.range (filters ++ [pending]).length).map fun index =>
        offset ((filters ++ [pending]).map policy.filterOf) index % 2 ^ 32 := by
    have last : offset ((filters ++ [pending]).map policy.filterOf) filters.length =
        builder.result.length := by
      rw [List.map_append, offset_append _ (by rw [List.length_map]), holds.result,
        ← offset_length, List.length_map]
    rw [holds.filterOffsets, List.length_append, List.length_singleton, List.range_succ,
      List.map_append, List.map_congr_left before, List.map_singleton, last]
  rw [generateFilter]
  split
  · rename_i noKeys
    rw [holds.start, List.length_map, List.length_range, List.length_eq_zero_iff] at noKeys
    subst noKeys
    exact
      { keys := holds.keys
        start := holds.start
        result := by simp [holds.result, FilterPolicy.filterOf]
        filterOffsets := offsets }
  · rename_i someKeys
    rw [holds.start, List.length_map, List.length_range, List.length_eq_zero_iff] at someKeys
    exact
      { keys := rfl
        start := rfl
        result := by simp [holds.result, tmpKeys_eq holds, FilterPolicy.filterOf, someKeys]
        filterOffsets := offsets }

theorem filterOffsets_length (holds : builder.Holds policy filters pending) :
    builder.filterOffsets.length = filters.length := by
  rw [holds.filterOffsets, List.length_map, List.length_range]

/-! ## Every key is in the filter of its block -/

/-- What the builder is told: that a block starts, or a key of the block. -/
inductive Event where
  | startBlock (blockOffset : Nat)
  | addKey (key : Slice)
  deriving DecidableEq, Repr

def handle (policy : FilterPolicy) (builder : FilterBlockBuilder) : Event → FilterBlockBuilder
  | .startBlock blockOffset => builder.startBlock policy blockOffset
  | .addKey key => builder.addKey key

def run (policy : FilterPolicy) (events : List Event) : FilterBlockBuilder :=
  events.foldl (handle policy) empty

/-- The keys, with the offsets of their blocks; `current` is the offset of the block that is
being built. -/
def added : Nat → List Event → List (Nat × Slice)
  | _, [] => []
  | _, .startBlock blockOffset :: events => added blockOffset events
  | current, .addKey key :: events => (current, key) :: added current events

/-- No block starts in front of the one before it. -/
def Ascending : Nat → List Event → Prop
  | _, [] => True
  | current, .startBlock blockOffset :: events =>
      current ≤ blockOffset ∧ Ascending blockOffset events
  | current, .addKey _ :: events => Ascending current events

/-- Every key that was seen is in the filter of its block or waits for it. -/
def Recorded (policy : FilterPolicy) (builder : FilterBlockBuilder) (count : Nat)
    (seen : List (Nat × Slice)) : Prop :=
  ∃ filters pending, builder.Holds policy filters pending ∧ filters.length = count ∧
    ∀ entry ∈ seen, (∃ keys, filters[entry.1 / kFilterBase]? = some keys ∧ entry.2 ∈ keys) ∨
      (entry.1 / kFilterBase = count ∧ entry.2 ∈ pending)

variable {count : Nat} {seen : List (Nat × Slice)}

theorem Recorded.generateFilter (recorded : Recorded policy builder count seen) :
    Recorded policy (builder.generateFilter policy) (count + 1) seen := by
  obtain ⟨filters, pending, holds, rfl, places⟩ := recorded
  refine ⟨filters ++ [pending], [], generateFilter_holds holds, by simp, ?_⟩
  intro entry member
  rcases places entry member with ⟨keys, found, inKeys⟩ | ⟨last, isPending⟩
  · have inside := (List.getElem?_eq_some_iff.mp found).1
    exact .inl ⟨keys, by rwa [List.getElem?_append_left inside], inKeys⟩
  · exact .inl ⟨pending, by rw [last, List.getElem?_concat_length], isPending⟩

theorem Recorded.generateFilters (recorded : Recorded policy builder count seen) (more : Nat) :
    Recorded policy (builder.generateFilters policy more) (count + more) seen := by
  induction more generalizing builder count with
  | zero => exact recorded
  | succ more ih =>
      have grown := ih recorded.generateFilter
      rwa [Nat.add_assoc, Nat.add_comm 1] at grown

theorem Recorded.addKey {current : Nat} (key : Slice)
    (recorded : Recorded policy builder (current / kFilterBase) seen) :
    Recorded policy (builder.addKey key) (current / kFilterBase) (seen ++ [(current, key)]) := by
  obtain ⟨filters, pending, holds, length, places⟩ := recorded
  refine ⟨filters, pending ++ [key], addKey_holds holds key, length, ?_⟩
  intro entry member
  rcases List.mem_append.mp member with before | new
  · rcases places entry before with found | ⟨last, isPending⟩
    · exact .inl found
    · exact .inr ⟨last, List.mem_append_left _ isPending⟩
  · obtain rfl := List.mem_singleton.mp new
    exact .inr ⟨rfl, List.mem_append_right _ (List.mem_singleton_self _)⟩

theorem Recorded.handle {current : Nat} {events : List Event} (ascending : Ascending current events)
    (recorded : Recorded policy builder (current / kFilterBase) seen) :
    ∃ last, Recorded policy (events.foldl (handle policy) builder) last
      (seen ++ added current events) := by
  induction events generalizing builder current seen with
  | nil => exact ⟨_, by rwa [added, List.append_nil]⟩
  | cons event events ih =>
      cases event with
      | startBlock blockOffset =>
          apply ih ascending.2
          have holds := recorded
          obtain ⟨filters, pending, holds, length, -⟩ := holds
          have grown := recorded.generateFilters
            (blockOffset / kFilterBase - builder.filterOffsets.length)
          have less := Nat.div_le_div_right (c := kFilterBase) ascending.1
          rw [filterOffsets_length holds, length, Nat.add_sub_cancel' less] at grown
          rw [FilterBlockBuilder.handle, startBlock, filterOffsets_length holds, length]
          exact grown
      | addKey key =>
          have later := ih ascending (recorded.addKey key)
          rwa [List.append_assoc] at later

/-- What `Finish` writes for some groups of keys. -/
def contents (policy : FilterPolicy) (filters : List (List Slice)) : Slice :=
  (filters.map policy.filterOf).flatten ++
    (((List.range filters.length).map fun index =>
        offset (filters.map policy.filterOf) index % 2 ^ 32).flatMap (encodeFixed 4) ++
      (encodeFixed 4 (filters.map policy.filterOf).flatten.length ++
        [Fin.ofNat 256 kFilterBaseLg]))

theorem generateFilter_start (builder : FilterBlockBuilder) :
    (builder.generateFilter policy).start = [] := by
  rw [generateFilter]
  split
  · rename_i noKeys
    exact List.length_eq_zero_iff.mp noKeys
  · rfl

/-- When no key waits, every key is in the filter of its block. -/
theorem Recorded.settled (recorded : Recorded policy builder count seen)
    (noKeys : builder.start = []) :
    ∃ filters, builder.Holds policy filters [] ∧
      ∀ entry ∈ seen, ∃ keys, filters[entry.1 / kFilterBase]? = some keys ∧ entry.2 ∈ keys := by
  obtain ⟨filters, pending, holds, -, places⟩ := recorded
  have noPending : pending = [] := by
    have start := holds.start
    rw [noKeys, eq_comm, List.map_eq_nil_iff, List.range_eq_nil] at start
    exact List.length_eq_zero_iff.mp start
  subst noPending
  refine ⟨filters, holds, ?_⟩
  intro entry member
  rcases places entry member with found | ⟨-, isPending⟩
  · exact found
  · cases isPending

theorem Recorded.finish (recorded : Recorded policy builder count seen) :
    ∃ filters, builder.finish policy = contents policy filters ∧
      ∀ entry ∈ seen, ∃ keys, filters[entry.1 / kFilterBase]? = some keys ∧ entry.2 ∈ keys := by
  have settled : ∃ filters,
      Holds policy (if builder.start ≠ [] then builder.generateFilter policy else builder)
        filters [] ∧
      ∀ entry ∈ seen, ∃ keys, filters[entry.1 / kFilterBase]? = some keys ∧ entry.2 ∈ keys := by
    split
    · exact recorded.generateFilter.settled (generateFilter_start builder)
    · rename_i noKeys
      exact recorded.settled (not_not.mp noKeys)
  obtain ⟨filters, holds, places⟩ := settled
  refine ⟨filters, ?_, places⟩
  rw [FilterBlockBuilder.finish, contents, holds.result, holds.filterOffsets]

end FilterBlockBuilder

namespace FilterBlockReader

variable {policy : FilterPolicy} {filters : List (List Slice)}

theorem keyMayMatch_contents (sound : policy.Sound)
    (fits : (FilterBlockBuilder.contents policy filters).length < 2 ^ 32) {blockOffset : Nat}
    {keys : List Slice} {key : Slice} (found : filters[blockOffset / kFilterBase]? = some keys)
    (member : key ∈ keys) :
    (ofContents (FilterBlockBuilder.contents policy filters)).keyMayMatch policy blockOffset key =
      true := by
  obtain ⟨segments, isSegments⟩ : ∃ segments, segments = filters.map policy.filterOf := ⟨_, rfl⟩
  obtain ⟨offsets, isOffsets⟩ : ∃ offsets, offsets =
      (List.range filters.length).map fun index => Lib.offset segments index % 2 ^ 32 :=
    ⟨_, rfl⟩
  have count : offsets.length = filters.length := by
    rw [isOffsets, List.length_map, List.length_range]
  have whole : FilterBlockBuilder.contents policy filters =
      segments.flatten ++ ((offsets ++ [segments.flatten.length]).flatMap (encodeFixed 4) ++
        [Fin.ofNat 256 kFilterBaseLg]) := by
    rw [FilterBlockBuilder.contents, ← isSegments, ← isOffsets, List.flatMap_append,
      List.flatMap_singleton, List.append_assoc]
  have length : (FilterBlockBuilder.contents policy filters).length =
      segments.flatten.length + (filters.length * 4 + 5) := by
    rw [whole, List.length_append, List.length_append, flatMap_encodeFixed_length,
      List.length_append, count]
    simp only [List.length_singleton]
    omega
  rw [length] at fits
  have inside := (List.getElem?_eq_some_iff.mp found).1
  have segment : segments[blockOffset / kFilterBase]? = some (policy.createFilter keys) := by
    have someKeys : keys ≠ [] := List.ne_nil_of_mem member
    rw [isSegments, List.getElem?_map, found, Option.map_some, FilterPolicy.filterOf,
      if_neg someKeys]
  have read : ∀ index, index ≤ filters.length →
      decodeFixed32At (FilterBlockBuilder.contents policy filters)
        (segments.flatten.length + index * 4) = Lib.offset segments index := by
    intro index within
    have small := offset_le segments index
    rw [whole]
    apply decodeFixed32At_flatMap _ (by omega)
    rcases Nat.lt_or_eq_of_le within with less | rfl
    · rw [List.getElem?_append_left (by omega), isOffsets, List.getElem?_map,
        List.getElem?_range less, Option.map_some, Nat.mod_eq_of_lt (by omega)]
    · have all : segments.length = filters.length := by rw [isSegments, List.length_map]
      rw [← count, List.getElem?_concat_length, count, ← all, offset_length]
  have lastWord : decodeFixed32At (FilterBlockBuilder.contents policy filters)
      (segments.flatten.length + (filters.length * 4 + 5) - 5) = segments.flatten.length := by
    have all : segments.length = filters.length := by rw [isSegments, List.length_map]
    have there := read filters.length (Nat.le_refl _)
    rwa [← all, offset_length, all] at there
  have base : ((FilterBlockBuilder.contents policy filters).getD
      (segments.flatten.length + (filters.length * 4 + 5) - 1) 0).val = kFilterBaseLg := by
    have front : (segments.flatten ++ (offsets ++ [segments.flatten.length]).flatMap
        (encodeFixed 4)).length = segments.flatten.length + (filters.length * 4 + 5) - 1 := by
      rw [List.length_append, flatMap_encodeFixed_length, List.length_append, count,
        List.length_singleton]
      omega
    rw [whole, ← List.append_assoc, List.getD_append_right _ _ _ _ front.le, front, Nat.sub_self]
    rfl
  have opened : ofContents (FilterBlockBuilder.contents policy filters) =
      ⟨FilterBlockBuilder.contents policy filters, segments.flatten.length, filters.length,
        kFilterBaseLg⟩ := by
    simp only [ofContents, length, lastWord, base]
    rw [if_neg (by omega), if_neg (by omega)]
    congr 1
    omega
  have index : blockOffset >>> kFilterBaseLg = blockOffset / kFilterBase := by
    rw [Nat.shiftRight_eq_div_pow]
    rfl
  have ends := read (blockOffset / kFilterBase + 1) inside
  have limitInside := offset_le segments (blockOffset / kFilterBase + 1)
  rw [Nat.add_one_mul, ← Nat.add_assoc, offset_succ segment] at ends
  rw [offset_succ segment] at limitInside
  rw [opened, keyMayMatch]
  dsimp only
  rw [index, if_pos inside, read _ inside.le, ends, if_pos ⟨Nat.le_add_right _ _, limitInside⟩,
    Nat.add_sub_cancel_left, whole, take_drop_offset segment]
  exact sound member

end FilterBlockReader

/-- A key that was added for a block is not denied at the offset of the block. -/
theorem FilterBlockReader.keyMayMatch_of_added (policy : BloomFilterPolicy)
    (events : List FilterBlockBuilder.Event) (ascending : FilterBlockBuilder.Ascending 0 events)
    (fits : ((FilterBlockBuilder.run policy.filterPolicy events).finish
      policy.filterPolicy).length < 2 ^ 32) {blockOffset : Nat} {key : Slice}
    (member : (blockOffset, key) ∈ FilterBlockBuilder.added 0 events) :
    (FilterBlockReader.ofContents ((FilterBlockBuilder.run policy.filterPolicy events).finish
      policy.filterPolicy)).keyMayMatch policy.filterPolicy blockOffset key = true := by
  have start : FilterBlockBuilder.Recorded policy.filterPolicy FilterBlockBuilder.empty
      (0 / kFilterBase) [] :=
    ⟨[], [], FilterBlockBuilder.empty_holds, rfl, fun entry none => by cases none⟩
  obtain ⟨last, recorded⟩ := start.handle ascending
  obtain ⟨filters, finished, places⟩ := recorded.finish
  obtain ⟨keys, found, inKeys⟩ := places (blockOffset, key) member
  rw [FilterBlockBuilder.run, finished] at fits ⊢
  exact keyMayMatch_contents policy.filterPolicy_sound fits found inKeys

theorem FilterBlockReader.keyMayMatch_of_added_later_block :
    (ofContents ((FilterBlockBuilder.run
      (BloomFilterPolicy.mk 10 6 (by decide) (by decide)).filterPolicy
        [.startBlock 0, .addKey [1], .startBlock 5000, .addKey [2]]).finish
      (BloomFilterPolicy.mk 10 6 (by decide) (by decide)).filterPolicy)).keyMayMatch
        (BloomFilterPolicy.mk 10 6 (by decide) (by decide)).filterPolicy 5000 [2] = true :=
  keyMayMatch_of_added ⟨10, 6, by decide, by decide⟩
    [.startBlock 0, .addKey [1], .startBlock 5000, .addKey [2]]
    ⟨by decide, by decide, trivial⟩ (by decide) (by decide)

end AhaTree
