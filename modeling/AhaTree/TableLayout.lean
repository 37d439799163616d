import AhaTree.TableBuilder

/-!
# What a table file holds

The blocks of a table stand one behind the other in its file, and the index has
an entry for each of them, with a key that separates the block from the next
one.  Everything that was added to a builder is in the blocks of the file that
it finished without an error.
-/

namespace AhaTree

/-- The bytes of a block that holds some entries. -/
def TableOptions.blockOf (options : TableOptions) (entries : List (Slice × Slice)) :
    BlockBuilder :=
  (BlockBuilder.empty options.blockRestartInterval).addAll entries

def KeysAscend (cmp : Slice → Slice → Ordering) (entries : List (Slice × Slice)) : Prop :=
  entries.Pairwise fun left right => cmp left.1 right.1 = .lt

/-- The blocks that were written, each with its handle. -/
structure DataBlocks (options : TableOptions) (file : Slice) (handles : List BlockHandle)
    (blocks : List (List (Slice × Slice))) : Prop where
  sameLength : handles.length = blocks.length
  stored : ∀ {number : Nat} {block handle}, blocks[number]? = some block →
    handles[number]? = some handle → Stored options.port file handle (options.blockOf block).finish
  ascending : handles.Pairwise fun left right => left.offset < right.offset
  inside : ∀ handle ∈ handles, handle.offset + handle.size < file.length
  nonempty : ∀ block ∈ blocks, block ≠ []
  sized : ∀ block ∈ blocks, (options.blockOf block).currentSizeEstimate < 2 ^ 32

/-- The entries of the index for the first blocks. -/
structure Indexes (cmp : Slice → Slice → Ordering) (index : List (Slice × Slice))
    (handles : List BlockHandle) (blocks : List (List (Slice × Slice))) : Prop where
  value : ∀ {number : Nat} {entry}, index[number]? = some entry →
    ∃ handle, handles[number]? = some handle ∧ entry.2 = handle.encodeTo
  upTo : ∀ {number : Nat} {entry block inner}, index[number]? = some entry →
    blocks[number]? = some block → inner ∈ block → (cmp inner.1 entry.1).isLE
  beyond : ∀ {number later : Nat} {entry block inner}, index[number]? = some entry →
    number < later → blocks[later]? = some block → inner ∈ block → cmp entry.1 inner.1 = .lt

/-- Another block at the end of the file. -/
theorem DataBlocks.concat {options : TableOptions} {file more : Slice}
    {handles : List BlockHandle} {blocks : List (List (Slice × Slice))}
    {block : List (Slice × Slice)} {size : Nat}
    (dataBlocks : DataBlocks options file handles blocks) (some : block ≠ [])
    (sized : (options.blockOf block).currentSizeEstimate < 2 ^ 32) (fits : size < more.length)
    (stored : Stored options.port (file ++ more) ⟨file.length, size⟩
      (options.blockOf block).finish) :
    DataBlocks options (file ++ more) (handles ++ [⟨file.length, size⟩]) (blocks ++ [block]) where
  sameLength := by
    rw [List.length_append, List.length_append, dataBlocks.sameLength]
    rfl
  stored := by
    intro number found handle foundBlock foundHandle
    by_cases inside : number < blocks.length
    · rw [List.getElem?_append_left inside] at foundBlock
      rw [List.getElem?_append_left (by rwa [dataBlocks.sameLength])] at foundHandle
      exact (dataBlocks.stored foundBlock foundHandle).append more
    · have within := (List.getElem?_eq_some_iff.mp foundBlock).1
      rw [List.length_append, List.length_singleton] at within
      obtain rfl : number = blocks.length := by omega
      rw [List.getElem?_concat_length, Option.some_inj] at foundBlock
      rw [← dataBlocks.sameLength, List.getElem?_concat_length, Option.some_inj] at foundHandle
      rw [← foundBlock, ← foundHandle]
      exact stored
  ascending := by
    refine List.pairwise_append.mpr ⟨dataBlocks.ascending, List.pairwise_singleton _ _, ?_⟩
    intro handle member last isLast
    have inside := dataBlocks.inside handle member
    rw [List.mem_singleton.mp isLast]
    dsimp only
    omega
  inside := by
    intro handle member
    rw [List.length_append]
    rcases List.mem_append.mp member with before | last
    · have inside := dataBlocks.inside handle before
      omega
    · rw [List.mem_singleton.mp last]
      dsimp only
      omega
  nonempty := by
    intro found member
    rcases List.mem_append.mp member with before | last
    · exact dataBlocks.nonempty found before
    · rwa [List.mem_singleton.mp last]
  sized := by
    intro found member
    rcases List.mem_append.mp member with before | last
    · exact dataBlocks.sized found before
    · rwa [List.mem_singleton.mp last]

theorem DataBlocks.append {options : TableOptions} {file : Slice} {handles : List BlockHandle}
    {blocks : List (List (Slice × Slice))} (dataBlocks : DataBlocks options file handles blocks)
    (more : Slice) : DataBlocks options (file ++ more) handles blocks where
  sameLength := dataBlocks.sameLength
  stored := fun foundBlock foundHandle => (dataBlocks.stored foundBlock foundHandle).append more
  ascending := dataBlocks.ascending
  inside := by
    intro handle member
    have inside := dataBlocks.inside handle member
    rw [List.length_append]
    omega
  nonempty := dataBlocks.nonempty
  sized := dataBlocks.sized

/-- A block that has no index entry yet. -/
theorem Indexes.concat {cmp : Slice → Slice → Ordering} {index : List (Slice × Slice)}
    {handles : List BlockHandle} {blocks : List (List (Slice × Slice))}
    {block : List (Slice × Slice)} {handle : BlockHandle}
    (indexes : Indexes cmp index handles blocks)
    (count : index.length = blocks.length) (sameLength : handles.length = blocks.length)
    (behind : ∀ entry ∈ index, ∀ inner ∈ block, cmp entry.1 inner.1 = .lt) :
    Indexes cmp index (handles ++ [handle]) (blocks ++ [block]) where
  value := by
    intro number entry found
    obtain ⟨known, foundHandle, same⟩ := indexes.value found
    have inside := (List.getElem?_eq_some_iff.mp foundHandle).1
    exact ⟨known, by rwa [List.getElem?_append_left inside], same⟩
  upTo := by
    intro number entry foundBlock inner found foundAt member
    have inside := (List.getElem?_eq_some_iff.mp found).1
    rw [List.getElem?_append_left (by omega)] at foundAt
    exact indexes.upTo found foundAt member
  beyond := by
    intro number later entry foundBlock inner found less foundAt member
    by_cases inside : later < blocks.length
    · rw [List.getElem?_append_left inside] at foundAt
      exact indexes.beyond found less foundAt member
    · have within := (List.getElem?_eq_some_iff.mp foundAt).1
      rw [List.length_append, List.length_singleton] at within
      obtain rfl : later = blocks.length := by omega
      rw [List.getElem?_concat_length, Option.some_inj] at foundAt
      exact behind entry (List.mem_of_getElem? found) inner (foundAt ▸ member)

/-- A block without entries has no bytes in front of its restart points. -/
theorem TableOptions.blockOf_buffer {options : TableOptions} {entries : List (Slice × Slice)}
    (none : (options.blockOf entries).buffer = []) : entries = [] := by
  obtain ⟨records, starts, holds, same⟩ :=
    (BlockBuilder.holds_empty options.blockRestartInterval).addAll entries
  have buffer := holds.buffer
  rw [← TableOptions.blockOf, none, eq_comm, List.flatMap_eq_nil_iff] at buffer
  have noRecords : records = [] := by
    apply List.eq_nil_iff_forall_not_mem.mpr
    intro record member
    exact record.encode_ne_nil (buffer record member)
  rw [noRecords] at same
  exact same.symm

namespace TableBuilder

/-- What holds while a table is built, as long as no write failed. -/
structure Building (builder : TableBuilder) (index : List (Slice × Slice))
    (handles : List BlockHandle) (blocks : List (List (Slice × Slice)))
    (current : List (Slice × Slice)) : Prop where
  status : builder.status = none
  offset : builder.offset = builder.file.contents.length
  dataBlock : builder.dataBlock = builder.options.blockOf current
  sized : builder.dataBlock.currentSizeEstimate < 2 ^ 32
  indexBlock : builder.indexBlock = (BlockBuilder.empty 1).addAll index
  dataBlocks : DataBlocks builder.options builder.file.contents handles blocks
  indexes : Indexes builder.options.comparator.compare index handles blocks
  beyondCurrent : ∀ entry ∈ index, ∀ inner ∈ current,
    builder.options.comparator.compare entry.1 inner.1 = .lt
  belowLast : ∀ entry ∈ index, builder.options.comparator.compare entry.1 builder.lastKey = .lt
  lastKey : ∀ entry, (blocks.flatten ++ current).getLast? = some entry → entry.1 = builder.lastKey
  pending : builder.pendingIndexEntry = true →
    index.length + 1 = blocks.length ∧ current = [] ∧
      handles.getLast? = some builder.pendingHandle
  settled : builder.pendingIndexEntry = false → index.length = blocks.length

theorem new_building (options : TableOptions) (outcomes : List WriteOutcome) :
    (new options ⟨[], outcomes⟩).Building [] [] [] [] where
  status := rfl
  offset := rfl
  dataBlock := rfl
  sized := (by decide : 8 < 2 ^ 32)
  indexBlock := rfl
  dataBlocks :=
    { sameLength := rfl
      stored := by simp
      ascending := .nil
      inside := by simp
      nonempty := by simp
      sized := by simp }
  indexes :=
    { value := by simp
      upTo := by simp
      beyond := by simp }
  beyondCurrent := by simp
  belowLast := by simp
  lastKey := by simp
  pending := by simp [new]
  settled := fun _ => rfl

section Adding

variable {builder : TableBuilder} {index : List (Slice × Slice)} {handles : List BlockHandle}
  {blocks : List (List (Slice × Slice))} {current : List (Slice × Slice)} {key value : Slice}

/-- The key of the last entry is below the next one. -/
theorem Building.lastKey_lt (building : builder.Building index handles blocks current)
    (ascending : KeysAscend builder.options.comparator.compare
      (blocks.flatten ++ current ++ [(key, value)]))
    (some : blocks.flatten ++ current ≠ []) :
    builder.options.comparator.compare builder.lastKey key = .lt := by
  have isLast := List.getLast?_eq_getLast_of_ne_nil some
  have less := (List.pairwise_append.mp ascending).2.2 _ (List.getLast_mem some) (key, value)
    (List.mem_singleton_self _)
  rwa [building.lastKey _ isLast] at less

theorem Building.some_of_blocks (building : builder.Building index handles blocks current)
    (someBlock : 0 < blocks.length) : blocks.flatten ++ current ≠ [] := by
  intro none
  obtain ⟨inner, inFirst⟩ := List.exists_mem_of_ne_nil _
    (building.dataBlocks.nonempty _ (List.getElem_mem someBlock))
  have inAll : inner ∈ blocks.flatten :=
    List.mem_flatten.mpr ⟨_, List.getElem_mem someBlock, inFirst⟩
  rw [(List.append_eq_nil_iff.mp none).1] at inAll
  cases inAll

theorem Building.index_le (building : builder.Building index handles blocks current) :
    index.length ≤ blocks.length := by
  cases waits : builder.pendingIndexEntry with
  | true =>
      have count := (building.pending waits).1
      omega
  | false => exact (building.settled waits).le

/-- What is in the index is below every entry that is still to come. -/
theorem Building.index_lt (building : builder.Building index handles blocks current)
    (lawful : builder.options.comparator.Lawful)
    (ascending : KeysAscend builder.options.comparator.compare
      (blocks.flatten ++ current ++ [(key, value)]))
    {entry : Slice × Slice} (member : entry ∈ index) :
    builder.options.comparator.compare entry.1 key = .lt := by
  have trans := lawful.trans
  have someBlock := Nat.lt_of_lt_of_le (List.length_pos_of_mem member) building.index_le
  exact Std.TransCmp.lt_trans (building.belowLast entry member)
    (building.lastKey_lt ascending (building.some_of_blocks someBlock))

theorem Building.le_lastKey (building : builder.Building index handles blocks current)
    (lawful : builder.options.comparator.Lawful)
    (ascending : KeysAscend builder.options.comparator.compare (blocks.flatten ++ current))
    {inner : Slice × Slice} (member : inner ∈ blocks.flatten ++ current) :
    (builder.options.comparator.compare inner.1 builder.lastKey).isLE := by
  have trans := lawful.trans
  have some := List.ne_nil_of_mem member
  have isLast := building.lastKey _ (List.getLast?_eq_getLast_of_ne_nil some)
  rw [← List.dropLast_append_getLast some] at member ascending
  rw [← isLast]
  rcases List.mem_append.mp member with before | last
  · have less := (List.pairwise_append.mp ascending).2.2 _ before _ (List.mem_singleton_self _)
    rw [less]
    rfl
  · have same : builder.options.comparator.compare
        ((blocks.flatten ++ current).getLast some).1
        ((blocks.flatten ++ current).getLast some).1 = .eq := Std.ReflCmp.compare_self
    rw [List.mem_singleton.mp last, same]
    rfl

theorem Building.addIndexEntry_indexBlock
    (building : builder.Building index handles blocks current) (separator : Slice) :
    (builder.addIndexEntry separator).indexBlock = (BlockBuilder.empty 1).addAll
      (index ++ [(separator, builder.pendingHandle.encodeTo)]) := by
  rw [BlockBuilder.addAll_concat, ← building.indexBlock]
  rfl

/-- The index entry of the block that waits for one. -/
theorem Building.addIndexEntry (building : builder.Building index handles blocks current)
    (pending : builder.pendingIndexEntry = true) {separator : Slice}
    (notBelow : (builder.options.comparator.compare builder.lastKey separator).isLE)
    (lawful : builder.options.comparator.Lawful)
    (ascending : KeysAscend builder.options.comparator.compare (blocks.flatten ++ current)) :
    Indexes builder.options.comparator.compare
      (index ++ [(separator, builder.pendingHandle.encodeTo)]) handles blocks := by
  have trans := lawful.trans
  obtain ⟨count, -, isLast⟩ := building.pending pending
  have split : ∀ {number entry},
      (index ++ [(separator, builder.pendingHandle.encodeTo)])[number]? = some entry →
        index[number]? = some entry ∨ (number = index.length ∧
          entry = (separator, builder.pendingHandle.encodeTo)) := by
    intro number entry found
    rcases Nat.lt_trichotomy number index.length with inside | rfl | beyond
    · rw [List.getElem?_append_left inside] at found
      exact .inl found
    · rw [List.getElem?_concat_length, Option.some_inj] at found
      exact .inr ⟨rfl, found.symm⟩
    · rw [List.getElem?_eq_none (by rw [List.length_append]; exact beyond)] at found
      cases found
  constructor
  case value =>
    intro number entry found
    rcases split found with before | ⟨rfl, rfl⟩
    · exact building.indexes.value before
    · refine ⟨builder.pendingHandle, ?_, rfl⟩
      rw [List.getLast?_eq_getElem?, building.dataBlocks.sameLength, ← count,
        Nat.add_sub_cancel] at isLast
      exact isLast
  case upTo =>
    intro number entry block inner found foundBlock member
    rcases split found with before | ⟨rfl, rfl⟩
    · exact building.indexes.upTo before foundBlock member
    · have inAll : inner ∈ blocks.flatten ++ current :=
        List.mem_append_left _ (List.mem_flatten.mpr
          ⟨block, List.mem_of_getElem? foundBlock, member⟩)
      exact Std.TransCmp.isLE_trans (building.le_lastKey lawful ascending inAll) notBelow
  case beyond =>
    intro number later entry block inner found less foundBlock member
    rcases split found with before | ⟨rfl, rfl⟩
    · exact building.indexes.beyond before less foundBlock member
    · have inside := (List.getElem?_eq_some_iff.mp foundBlock).1
      omega

theorem Building.addEntry (building : builder.Building index handles blocks current)
    (lawful : builder.options.comparator.Lawful)
    (ascending : KeysAscend builder.options.comparator.compare
      (blocks.flatten ++ current ++ [(key, value)]))
    (sized : (builder.dataBlock.add key value).currentSizeEstimate < 2 ^ 32) :
    ∃ index', (builder.addEntry key value).Building index' handles blocks
      (current ++ [(key, value)]) := by
  have before : KeysAscend builder.options.comparator.compare (blocks.flatten ++ current) :=
    (List.pairwise_append.mp ascending).1
  have added : (builder.options.blockOf current).add key value =
      builder.options.blockOf (current ++ [(key, value)]) :=
    (BlockBuilder.addAll_concat _ current key value).symm
  have lastKey : ∀ entry, (blocks.flatten ++ (current ++ [(key, value)])).getLast? = some entry →
      entry.1 = key := by
    intro entry isLast
    rw [← List.append_assoc, List.getLast?_concat, Option.some_inj] at isLast
    rw [← isLast]
  cases waits : builder.pendingIndexEntry with
  | true =>
      obtain ⟨count, noCurrent, -⟩ := building.pending waits
      have less := building.lastKey_lt ascending (building.some_of_blocks (by omega))
      have below : ∀ entry ∈ index ++ [(builder.options.comparator.findShortestSeparator
          builder.lastKey key, builder.pendingHandle.encodeTo)],
          builder.options.comparator.compare entry.1 key = .lt := by
        intro entry member
        rcases List.mem_append.mp member with earlier | isNew
        · exact building.index_lt lawful ascending earlier
        · rw [List.mem_singleton.mp isNew]
          exact lawful.belowLimit less
      refine ⟨index ++ [(builder.options.comparator.findShortestSeparator builder.lastKey key,
        builder.pendingHandle.encodeTo)], ?_⟩
      rw [TableBuilder.addEntry, if_pos waits]
      exact
        { status := building.status
          offset := building.offset
          dataBlock := (congrArg (fun block => block.add key value) building.dataBlock).trans added
          sized := sized
          indexBlock := building.addIndexEntry_indexBlock _
          dataBlocks := building.dataBlocks
          indexes := building.addIndexEntry waits (lawful.notBelow less) lawful before
          beyondCurrent := by
            intro entry member inner isCurrent
            rw [noCurrent, List.nil_append, List.mem_singleton] at isCurrent
            rw [isCurrent]
            exact below entry member
          belowLast := below
          lastKey := lastKey
          pending := fun waiting => by cases waiting
          settled := fun _ => by rw [List.length_append, List.length_singleton, count] }
  | false =>
      refine ⟨index, ?_⟩
      rw [TableBuilder.addEntry, if_neg (by rw [waits]; decide)]
      exact
        { status := building.status
          offset := building.offset
          dataBlock := (congrArg (fun block => block.add key value) building.dataBlock).trans added
          sized := sized
          indexBlock := building.indexBlock
          dataBlocks := building.dataBlocks
          indexes := building.indexes
          beyondCurrent := by
            intro entry member inner isCurrent
            rcases List.mem_append.mp isCurrent with earlier | isNew
            · exact building.beyondCurrent entry member inner earlier
            · rw [List.mem_singleton.mp isNew]
              exact building.index_lt lawful ascending member
          belowLast := fun entry member => building.index_lt lawful ascending member
          lastKey := lastKey
          pending := fun waiting => by rw [waits] at waiting; cases waiting
          settled := fun _ => building.settled waits }

theorem Building.flush (building : builder.Building index handles blocks current)
    (lossless : builder.options.port.Lossless) (done : builder.flush.status = none) :
    ∃ handles' blocks', builder.flush.Building index handles' blocks' [] ∧
      blocks'.flatten = blocks.flatten ++ current := by
  have ok : builder.ok = true := by rw [TableBuilder.ok, building.status]; rfl
  rw [TableBuilder.flush, if_neg (not_not.mpr ok)] at done ⊢
  by_cases empty : builder.dataBlock.buffer = []
  · rw [if_pos empty]
    rw [building.dataBlock] at empty
    obtain rfl := TableOptions.blockOf_buffer empty
    exact ⟨handles, blocks, building, (List.append_nil _).symm⟩
  · rw [if_neg empty] at done ⊢
    have some : current ≠ [] := by
      rintro rfl
      rw [building.dataBlock] at empty
      exact empty rfl
    have settled : builder.pendingIndexEntry = false := by
      cases waits : builder.pendingIndexEntry with
      | true => exact absurd (building.pending waits).2.1 some
      | false => rfl
    have count := building.settled settled
    have written : (builder.writeBlock builder.dataBlock).2.status = none := by
      dsimp only at done
      split at done
      · rename_i wrote
        exact Option.isNone_iff_eq_none.mp wrote
      · exact done
    obtain ⟨file, size, more, whole, contents, fits, stored⟩ :=
      writeBlock_ok lossless building.offset written
    rw [whole] at done ⊢
    simp only [TableBuilder.ok, Option.isNone_none, if_true] at done ⊢
    have kept := flush_ok done
    rw [building.dataBlock, building.offset, contents] at stored
    refine ⟨handles ++ [⟨builder.file.contents.length, size⟩], blocks ++ [current], ?_, by simp⟩
    exact
      { status := done
        offset := by rw [kept]
        dataBlock := rfl
        sized := (by decide : 8 < 2 ^ 32)
        indexBlock := building.indexBlock
        dataBlocks := by
          rw [kept, contents]
          exact building.dataBlocks.concat some (building.dataBlock ▸ building.sized) fits stored
        indexes := building.indexes.concat count building.dataBlocks.sameLength
          building.beyondCurrent
        beyondCurrent := by simp
        belowLast := building.belowLast
        lastKey := by
          intro entry isLast
          exact building.lastKey entry (by simpa using isLast)
        pending := by
          intro _
          refine ⟨by rw [count, List.length_append]; rfl, rfl, ?_⟩
          rw [List.getLast?_concat, building.offset]
        settled := fun waits => by cases waits }

@[simp] theorem addEntry_options (builder : TableBuilder) (key value : Slice) :
    (builder.addEntry key value).options = builder.options := by
  rw [TableBuilder.addEntry]
  split <;> rfl

@[simp] theorem writeRawBlock_options (builder : TableBuilder) (contents : Slice)
    (type : CompressionType) :
    (builder.writeRawBlock contents type).2.options = builder.options := by
  rw [writeRawBlock]
  dsimp only
  split
  · split <;> rfl
  · rfl

@[simp] theorem flush_options (builder : TableBuilder) :
    builder.flush.options = builder.options := by
  rw [TableBuilder.flush]
  split
  · rfl
  · split
    · rfl
    · dsimp only
      split <;> exact writeRawBlock_options builder _ _

@[simp] theorem add_options (builder : TableBuilder) (key value : Slice) :
    (builder.add key value).options = builder.options := by
  rw [TableBuilder.add]
  split
  · rfl
  · dsimp only
    split
    · rw [flush_options, addEntry_options]
    · exact addEntry_options builder key value

theorem status_of_add {entries : List (Slice × Slice)}
    (done : (builder.addAll entries).status = none) : builder.status = none := by
  induction entries generalizing builder with
  | nil => exact done
  | cons entry entries ih =>
      have added : (builder.add entry.1 entry.2).status = none := ih done
      rw [TableBuilder.add] at added
      split at added
      · exact added
      · rename_i ok
        exact Option.isNone_iff_eq_none.mp (not_not.mp ok)

theorem Building.add (building : builder.Building index handles blocks current)
    (lawful : builder.options.comparator.Lawful) (lossless : builder.options.port.Lossless)
    (ascending : KeysAscend builder.options.comparator.compare
      (blocks.flatten ++ current ++ [(key, value)]))
    (sized : (builder.dataBlock.add key value).currentSizeEstimate < 2 ^ 32)
    (done : (builder.add key value).status = none) :
    ∃ index' handles' blocks' current',
      (builder.add key value).Building index' handles' blocks' current' ∧
      blocks'.flatten ++ current' = blocks.flatten ++ current ++ [(key, value)] := by
  have ok : builder.ok = true := by rw [TableBuilder.ok, building.status]; rfl
  obtain ⟨index', added⟩ := building.addEntry lawful ascending sized
  rw [TableBuilder.add, if_neg (not_not.mpr ok)] at done ⊢
  dsimp only at done ⊢
  split at done
  · rename_i full
    obtain ⟨handles', blocks', flushed, same⟩ :=
      added.flush (by rwa [addEntry_options]) done
    refine ⟨index', handles', blocks', [], ?_, ?_⟩
    · rwa [if_pos full]
    · rw [List.append_nil, same, List.append_assoc]
  · rename_i room
    refine ⟨index', handles, blocks, current ++ [(key, value)], ?_, ?_⟩
    · rwa [if_neg room]
    · rw [List.append_assoc]

/-- No block grows to four gigabytes, nor does the index. -/
def Fits (builder : TableBuilder) : List (Slice × Slice) → Prop
  | [] => builder.flush.closeIndex.indexBlock.currentSizeEstimate < 2 ^ 32
  | entry :: entries =>
      (builder.dataBlock.add entry.1 entry.2).currentSizeEstimate < 2 ^ 32 ∧
        (builder.add entry.1 entry.2).Fits entries

theorem Building.addAll (building : builder.Building index handles blocks current)
    (lawful : builder.options.comparator.Lawful) (lossless : builder.options.port.Lossless)
    {entries : List (Slice × Slice)}
    (ascending : KeysAscend builder.options.comparator.compare
      (blocks.flatten ++ current ++ entries))
    (fits : builder.Fits entries) (done : (builder.addAll entries).status = none) :
    ∃ index' handles' blocks' current',
      (builder.addAll entries).Building index' handles' blocks' current' ∧
      blocks'.flatten ++ current' = blocks.flatten ++ current ++ entries ∧
      (builder.addAll entries).options = builder.options ∧ (builder.addAll entries).Fits [] := by
  induction entries generalizing builder index handles blocks current with
  | nil => exact ⟨index, handles, blocks, current, building, (List.append_nil _).symm, rfl, fits⟩
  | cons entry entries ih =>
      have first : blocks.flatten ++ current ++ entry :: entries =
          blocks.flatten ++ current ++ [entry] ++ entries := by simp
      rw [first] at ascending ⊢
      obtain ⟨index', handles', blocks', current', added, same⟩ :=
        building.add lawful lossless (List.pairwise_append.mp ascending).1 fits.1
          (status_of_add done)
      obtain ⟨index'', handles'', blocks'', current'', whole, sameAll, options, closes⟩ :=
        ih added (by rwa [add_options]) (by rwa [add_options])
          (by rw [add_options, same]; exact ascending) fits.2 done
      refine ⟨index'', handles'', blocks'', current'', whole, ?_, ?_, closes⟩
      · rw [sameAll, same]
      · exact options.trans (add_options builder entry.1 entry.2)

/-! ## The end of the file -/

/-- The file has grown, and the index still has to be written. -/
structure Grown (builder after : TableBuilder) : Prop where
  status : after.status = none
  offset : after.offset = after.file.contents.length
  contents : ∃ more, after.file.contents = builder.file.contents ++ more
  options : after.options = builder.options
  dataBlock : after.dataBlock = builder.dataBlock
  indexBlock : after.indexBlock = builder.indexBlock
  lastKey : after.lastKey = builder.lastKey
  pendingIndexEntry : after.pendingIndexEntry = builder.pendingIndexEntry
  pendingHandle : after.pendingHandle = builder.pendingHandle

variable {after : TableBuilder}

theorem Building.grow (building : builder.Building index handles blocks current)
    (grown : builder.Grown after) : after.Building index handles blocks current := by
  obtain ⟨more, contents⟩ := grown.contents
  exact
    { status := grown.status
      offset := grown.offset
      dataBlock := by rw [grown.dataBlock, grown.options, building.dataBlock]
      sized := by rw [grown.dataBlock]; exact building.sized
      indexBlock := by rw [grown.indexBlock, building.indexBlock]
      dataBlocks := by rw [grown.options, contents]; exact building.dataBlocks.append more
      indexes := by rw [grown.options]; exact building.indexes
      beyondCurrent := by rw [grown.options]; exact building.beyondCurrent
      belowLast := by rw [grown.options, grown.lastKey]; exact building.belowLast
      lastKey := by rw [grown.lastKey]; exact building.lastKey
      pending := by rw [grown.pendingIndexEntry, grown.pendingHandle]; exact building.pending
      settled := by rw [grown.pendingIndexEntry]; exact building.settled }

/-- A stage that does nothing after an error has met none. -/
theorem status_of_stage {α : Type} {stage : α × TableBuilder} {idle : α}
    (done : (if builder.ok then stage else (idle, builder)).2.status = none) :
    builder.ok = true ∧ stage.2.status = none := by
  split at done
  · rename_i ok
    exact ⟨ok, done⟩
  · rename_i failed
    exact absurd (Option.isNone_iff_eq_none.mpr done) failed

theorem writeFilter_grown (offset : builder.offset = builder.file.contents.length)
    (done : builder.writeFilter.2.status = none) : builder.Grown builder.writeFilter.2 := by
  rw [writeFilter] at done ⊢
  cases filter : builder.filterBlock with
  | none =>
      rw [filter] at done
      exact ⟨done, offset, ⟨[], (List.append_nil _).symm⟩, rfl, rfl, rfl, rfl, rfl, rfl⟩
  | some policyFilter =>
      rw [filter] at done
      obtain ⟨ok, written⟩ := status_of_stage done
      obtain ⟨file, whole, contents⟩ := writeRawBlock_ok written
      dsimp only
      rw [if_pos ok, whole]
      refine ⟨rfl, ?_, ⟨_, contents⟩, rfl, rfl, rfl, rfl, rfl, rfl⟩
      dsimp only
      rw [contents, List.length_append, List.length_append, blockTrailer_length, offset]

theorem writeMetaindex_grown {filterHandle : BlockHandle}
    (lossless : builder.options.port.Lossless)
    (offset : builder.offset = builder.file.contents.length)
    (done : (builder.writeMetaindex filterHandle).2.status = none) :
    builder.Grown (builder.writeMetaindex filterHandle).2 ∧
      (builder.writeMetaindex filterHandle).1.offset +
          (builder.writeMetaindex filterHandle).1.size <
        (builder.writeMetaindex filterHandle).2.file.contents.length := by
  rw [writeMetaindex] at done ⊢
  obtain ⟨ok, written⟩ := status_of_stage done
  obtain ⟨file, size, more, whole, contents, fits, -⟩ := writeBlock_ok lossless offset written
  rw [if_pos ok]
  dsimp only
  rw [whole]
  refine ⟨⟨rfl, rfl, ⟨more, contents⟩, rfl, rfl, rfl, rfl, rfl, rfl⟩, ?_⟩
  dsimp only
  rw [contents, List.length_append, offset]
  omega

/-- After the last entry the index has one for each block. -/
theorem Building.closeIndex (building : builder.Building index handles blocks current)
    (lawful : builder.options.comparator.Lawful)
    (ascending : KeysAscend builder.options.comparator.compare (blocks.flatten ++ current)) :
    ∃ index', builder.closeIndex.indexBlock = (BlockBuilder.empty 1).addAll index' ∧
      index'.length = blocks.length ∧
      Indexes builder.options.comparator.compare index' handles blocks := by
  rw [TableBuilder.closeIndex]
  cases waits : builder.pendingIndexEntry with
  | true =>
      refine ⟨_, building.addIndexEntry_indexBlock _, ?_,
        building.addIndexEntry waits (lawful.successor builder.lastKey) lawful ascending⟩
      rw [List.length_append, List.length_singleton, (building.pending waits).1]
  | false => exact ⟨index, building.indexBlock, building.settled waits, building.indexes⟩

theorem status_of_footer {metaindexHandle indexHandle : BlockHandle}
    (done : (builder.writeFooter metaindexHandle indexHandle).status = none) :
    builder.ok = true ∧
      (builder.file.append (Footer.mk metaindexHandle indexHandle).encodeTo).1 = none := by
  rw [writeFooter] at done
  split at done
  · rename_i ok
    exact ⟨ok, done⟩
  · rename_i failed
    exact absurd (Option.isNone_iff_eq_none.mpr done) failed

theorem writeFooter_contents {metaindexHandle indexHandle : BlockHandle}
    (done : (builder.writeFooter metaindexHandle indexHandle).status = none) :
    (builder.writeFooter metaindexHandle indexHandle).file.contents =
      builder.file.contents ++ (Footer.mk metaindexHandle indexHandle).encodeTo := by
  obtain ⟨ok, appended⟩ := status_of_footer done
  rw [writeFooter, if_pos ok]
  exact append_ok appended

theorem writeFooter_offset {metaindexHandle indexHandle : BlockHandle}
    (done : (builder.writeFooter metaindexHandle indexHandle).status = none) :
    (builder.writeFooter metaindexHandle indexHandle).offset =
      builder.offset + (Footer.mk metaindexHandle indexHandle).encodeTo.length := by
  obtain ⟨ok, appended⟩ := status_of_footer done
  rw [writeFooter, if_pos ok]
  exact if_pos (Option.isNone_iff_eq_none.mpr appended)

theorem status_of_writeFilter (done : builder.writeFilter.2.status = none) :
    builder.status = none := by
  rw [writeFilter] at done
  split at done
  · exact Option.isNone_iff_eq_none.mp (status_of_stage done).1
  · exact done

/-- No stage of `Finish` met an error, from the last one back to the first. -/
theorem stages_of_finish (done : builder.finish.status = none) :
    builder.flush.status = none ∧ builder.filtered.2.status = none ∧
      builder.metaindexed.2.status = none ∧ builder.indexed.2.status = none := by
  have indexedDone := Option.isNone_iff_eq_none.mp (status_of_footer done).1
  have metaindexedDone := Option.isNone_iff_eq_none.mp (status_of_stage indexedDone).1
  have filteredDone := Option.isNone_iff_eq_none.mp (status_of_stage metaindexedDone).1
  have flushedDone : builder.flushed.status = none := status_of_writeFilter filteredDone
  exact ⟨flushedDone, filteredDone, metaindexedDone, indexedDone⟩

theorem status_of_flush (done : builder.flush.status = none) : builder.status = none := by
  rw [TableBuilder.flush] at done
  split at done
  · exact done
  · rename_i ok
    exact Option.isNone_iff_eq_none.mp (not_not.mp ok)

theorem Grown.closeIndex (grown : builder.Grown after) :
    after.closeIndex.indexBlock = builder.closeIndex.indexBlock := by
  rw [TableBuilder.closeIndex, TableBuilder.closeIndex, grown.pendingIndexEntry]
  split
  · rw [addIndexEntry, addIndexEntry, grown.indexBlock, grown.options, grown.lastKey,
      grown.pendingHandle]
  · exact grown.indexBlock

theorem closeIndex_fields (builder : TableBuilder) :
    builder.closeIndex.options = builder.options ∧ builder.closeIndex.file = builder.file ∧
      builder.closeIndex.offset = builder.offset := by
  rw [TableBuilder.closeIndex]
  split <;> exact ⟨rfl, rfl, rfl⟩

end Adding

end TableBuilder

/-- The file of a table that was finished without an error. -/
structure TableFile (options : TableOptions) (file : Slice) (index : List (Slice × Slice))
    (handles : List BlockHandle) (blocks : List (List (Slice × Slice))) (footer : Footer) :
    Prop where
  dataBlocks : DataBlocks options file handles blocks
  indexes : Indexes options.comparator.compare index handles blocks
  complete : index.length = blocks.length
  indexStored : Stored options.port file footer.indexHandle
    ((BlockBuilder.empty 1).addAll index).finish
  indexSized : ((BlockBuilder.empty 1).addAll index).currentSizeEstimate < 2 ^ 32
  metaindexInside : footer.metaindexHandle.offset + footer.metaindexHandle.size < file.length
  indexInside : footer.indexHandle.offset + footer.indexHandle.size < file.length
  ends : ∃ front, file = front ++ footer.encodeTo

namespace TableBuilder

theorem Building.finish {builder : TableBuilder} {index : List (Slice × Slice)}
    {handles : List BlockHandle} {blocks : List (List (Slice × Slice))}
    {current : List (Slice × Slice)}
    (building : builder.Building index handles blocks current)
    (lawful : builder.options.comparator.Lawful) (lossless : builder.options.port.Lossless)
    (ascending : KeysAscend builder.options.comparator.compare (blocks.flatten ++ current))
    (fits : builder.Fits []) (done : builder.finish.status = none) :
    ∃ index' handles' blocks' footer,
      TableFile builder.options builder.finish.file.contents index' handles' blocks' footer ∧
        blocks'.flatten = blocks.flatten ++ current ∧
        builder.finish.offset = builder.finish.file.contents.length := by
  obtain ⟨flushDone, filteredDone, metaindexedDone, indexedDone⟩ := stages_of_finish done
  obtain ⟨metaindexedOk, written⟩ := status_of_stage indexedDone
  obtain ⟨handles', blocks', inBlocks, same⟩ := building.flush lossless flushDone
  have closed : builder.flush.Grown builder.flushed :=
    ⟨flushDone, inBlocks.offset, ⟨[], (List.append_nil _).symm⟩, rfl, rfl, rfl, rfl, rfl, rfl⟩
  have filteredGrown : builder.flushed.Grown builder.filtered.2 :=
    writeFilter_grown closed.offset filteredDone
  have options : builder.filtered.2.options = builder.options :=
    filteredGrown.options.trans (closed.options.trans (flush_options builder))
  have metaindexedGrown : builder.filtered.2.Grown builder.metaindexed.2 ∧
      builder.metaindexed.1.offset + builder.metaindexed.1.size <
        builder.metaindexed.2.file.contents.length :=
    writeMetaindex_grown (by rwa [options]) filteredGrown.offset metaindexedDone
  have optionsToo : builder.metaindexed.2.options = builder.options :=
    metaindexedGrown.1.options.trans options
  have last := ((inBlocks.grow closed).grow filteredGrown).grow metaindexedGrown.1
  obtain ⟨index', indexBlock, complete, indexes⟩ := last.closeIndex (by rwa [optionsToo])
    (by rw [optionsToo, List.append_nil, same]; exact ascending)
  obtain ⟨closedOptions, closedFile, closedOffset⟩ := closeIndex_fields builder.metaindexed.2
  obtain ⟨file, size, more, whole, contents, fitsBehind, stored⟩ :=
    writeBlock_ok (by rw [closedOptions, optionsToo]; exact lossless)
      (by rw [closedFile, closedOffset]; exact last.offset) written
  have sized : ((BlockBuilder.empty 1).addAll index').currentSizeEstimate < 2 ^ 32 := by
    rw [← indexBlock, metaindexedGrown.1.closeIndex, filteredGrown.closeIndex, closed.closeIndex]
    exact fits
  have indexed : builder.indexed = (⟨builder.metaindexed.2.offset, size⟩,
      { builder.metaindexed.2.closeIndex with
        file := file
        status := none
        offset := file.contents.length
        indexBlock := .empty 1 }) := by
    rw [TableBuilder.indexed, writeIndex, if_pos metaindexedOk]
    dsimp only
    rw [whole, closedOffset]
  have contentsToo : builder.finish.file.contents = builder.indexed.2.file.contents ++
      (Footer.mk builder.metaindexed.1 builder.indexed.1).encodeTo := writeFooter_contents done
  have inBlocksToo := last.dataBlocks
  rw [optionsToo] at inBlocksToo indexes
  rw [closedOptions, optionsToo, closedOffset, indexBlock, contents, closedFile] at stored
  have offsetToo : builder.finish.offset = builder.indexed.2.offset +
      (Footer.mk builder.metaindexed.1 builder.indexed.1).encodeTo.length := writeFooter_offset done
  refine ⟨index', handles', blocks', ⟨builder.metaindexed.1, ⟨builder.metaindexed.2.offset, size⟩⟩,
    ?_, same, ?_⟩
  · rw [contentsToo, indexed]
    dsimp only
    rw [contents, closedFile]
    exact
      { dataBlocks := (inBlocksToo.append more).append _
        indexes := indexes
        complete := complete
        indexStored := stored.append _
        indexSized := sized
        metaindexInside := by
          have inside := metaindexedGrown.2
          simp only [List.length_append]
          omega
        indexInside := by
          have offset := last.offset
          simp only [List.length_append]
          omega
        ends := ⟨_, rfl⟩ }
  · rw [offsetToo, contentsToo, List.length_append, indexed]

/-- Everything that was added is in the file, if the builder met no error. -/
theorem finish_tableFile {options : TableOptions} (lawful : options.comparator.Lawful)
    (lossless : options.port.Lossless) (outcomes : List WriteOutcome)
    {entries : List (Slice × Slice)} (ascending : KeysAscend options.comparator.compare entries)
    (fits : (new options ⟨[], outcomes⟩).Fits entries)
    (done : ((new options ⟨[], outcomes⟩).addAll entries).finish.status = none) :
    ∃ index handles blocks footer,
      TableFile options ((new options ⟨[], outcomes⟩).addAll entries).finish.file.contents
        index handles blocks footer ∧
      blocks.flatten = entries ∧
      ((new options ⟨[], outcomes⟩).addAll entries).finish.offset =
        ((new options ⟨[], outcomes⟩).addAll entries).finish.file.contents.length := by
  have flushDone := status_of_flush (stages_of_finish done).1
  obtain ⟨index, handles, blocks, current, building, same, sameOptions, closes⟩ :=
    (new_building options outcomes).addAll lawful lossless (by exact ascending) fits flushDone
  obtain ⟨index', handles', blocks', footer, tableFile, sameToo, offset⟩ :=
    building.finish (by rwa [sameOptions]) (by rwa [sameOptions])
      (by rw [sameOptions, same]; exact ascending) closes done
  rw [sameOptions] at tableFile
  exact ⟨index', handles', blocks', footer, tableFile, sameToo.trans same, offset⟩

end TableBuilder

end AhaTree
