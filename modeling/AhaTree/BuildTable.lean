import AhaTree.MemTable
import AhaTree.Table

/-!
# From a memtable to a table file

The model of `builder.cc`: a table is built from all entries of an iterator, and
opened once to see whether it can be read.  Every call to the environment may
fail.  A table that was built from a memtable shows what the memtable shows.
-/

namespace AhaTree

open Coding
open Lib (Cursor)

/-- How the calls to the environment end. -/
structure BuildEnv where
  created : Option Table.Error
  outcomes : List WriteOutcome
  synced : Option Table.Error
  closed : Option Table.Error
  opened : Option Table.Error
  deriving DecidableEq, Repr

/-- The fields of `FileMetaData` that are set. -/
structure TableMeta where
  fileSize : Nat
  smallest : Slice
  largest : Slice
  deriving DecidableEq, Repr

/-- The file is missing when it was not created, or was removed. -/
structure Built where
  status : Option Table.Error
  tableMeta : TableMeta
  file : Option Slice
  deriving DecidableEq, Repr

namespace BuildTable

/-- `TableCache::NewIterator`, for a table that is not in the cache. -/
def verify (env : BuildEnv) (options : TableOptions) (file : Slice) (fileSize : Nat) :
    Option Table.Error :=
  env.opened.or
    (match Table.openTable options (.ofBytes file) fileSize with
    | .error error => some error
    | .ok table => (table.levels ⟨false⟩).status table.newIterator)

/-- Every entry is added, and the last key is kept. -/
def takeEntry (taken : TableBuilder × Slice) (entry : Slice × Slice) : TableBuilder × Slice :=
  (taken.1.add entry.1 entry.2, entry.1)

/-- What is left of the file at the end. -/
def keep (status : Option Table.Error) (tableMeta : TableMeta) (file : Option Slice) : Built where
  status := status
  tableMeta := tableMeta
  file := if status = none ∧ 0 < tableMeta.fileSize then file else none

end BuildTable

open BuildTable in
/-- `BuildTable`; the fuel bounds the number of entries. -/
def buildTable {σ target : Type} (env : BuildEnv) (options : TableOptions)
    (cursor : Cursor σ (Slice × Slice) target) (iterStatus : Option Table.Error) (fuel : Nat)
    (iter : σ) (tableMeta : TableMeta) : Built :=
  let tableMeta := { tableMeta with fileSize := 0 }
  let iter := cursor.seekToFirst iter
  match cursor.current iter with
  | none => keep iterStatus tableMeta none
  | some (smallest, _) =>
      match env.created with
      | some error => ⟨some error, tableMeta, none⟩
      | none =>
          let (builder, key) :=
            cursor.forward takeEntry fuel iter (TableBuilder.new options ⟨[], env.outcomes⟩, [])
          let built := builder.finish
          let tableMeta :=
            { fileSize := if built.status = none then built.offset else 0
              smallest := smallest
              largest := if key = [] then tableMeta.largest else key }
          let status := built.status.or (env.synced.or env.closed)
          let verified := status.or (verify env options built.file.contents tableMeta.fileSize)
          keep (iterStatus.or verified) tableMeta (some built.file.contents)

namespace BuildTable

theorem foldl_takeEntry (entries : List (Slice × Slice)) (builder : TableBuilder) (key : Slice) :
    entries.foldl takeEntry (builder, key) =
      (builder.addAll entries, (entries.getLast?.map Prod.fst).getD key) := by
  induction entries generalizing builder key with
  | nil => rfl
  | cons entry entries ih =>
      rw [List.foldl_cons, takeEntry, ih, List.getLast?_cons]
      cases entries.getLast? <;> rfl

theorem keep_file {status : Option Table.Error} {tableMeta : TableMeta} {file : Option Slice}
    (ok : status = none) (some : 0 < tableMeta.fileSize) :
    (keep status tableMeta file).file = file :=
  if_pos ⟨ok, some⟩

section Building

variable {σ target : Type} {env : BuildEnv} {options : TableOptions}
  {cursor : Cursor σ (Slice × Slice) target} {fuel : Nat} {iter : σ} {tableMeta : TableMeta}

/-- An error leaves no file behind. -/
theorem removed_of_error {iterStatus : Option Table.Error}
    (failed : (buildTable env options cursor iterStatus fuel iter tableMeta).status ≠ none) :
    (buildTable env options cursor iterStatus fuel iter tableMeta).file = none := by
  rw [buildTable] at failed ⊢
  dsimp only at failed ⊢
  split at failed
  · exact ite_self none
  · split at failed
    · rfl
    · exact if_neg fun kept => failed kept.1

/-- What the function comes to when the iterator walks over some entries. -/
theorem buildTable_eq {entries : List (Slice × Slice)} {below : target → Slice × Slice → Bool}
    {stands : σ → Option Nat → Prop} (walks : Cursor.Walks cursor entries below stands)
    {standing : Option Nat} (start : stands iter standing) (enough : entries.length < fuel)
    {first last : Slice × Slice} (isFirst : entries.head? = some first)
    (isLast : entries.getLast? = some last) (notEmpty : last.1 ≠ [])
    (created : env.created = none) :
    buildTable env options cursor none fuel iter tableMeta =
      let built := ((TableBuilder.new options ⟨[], env.outcomes⟩).addAll entries).finish
      let fileSize := if built.status = none then built.offset else 0
      keep ((built.status.or (env.synced.or env.closed)).or
          (verify env options built.file.contents fileSize))
        ⟨fileSize, first.1, last.1⟩ (some built.file.contents) := by
  have shown := walks.current_seekToFirst start
  have taken := walks.forward takeEntry (TableBuilder.new options ⟨[], env.outcomes⟩, [])
    (walks.seekToFirst start) enough
  rw [List.drop_zero, foldl_takeEntry, isLast] at taken
  simp only [buildTable, shown, isFirst, created, taken, Option.map_some, Option.getD_some,
    if_neg notEmpty, Option.none_or]

/-- A table that was built without an error has the entries that the iterator walks over. -/
theorem walks_of_ok {entries : List (Slice × Slice)} {below : target → Slice × Slice → Bool}
    {stands : σ → Option Nat → Prop} (walks : Cursor.Walks cursor entries below stands)
    {standing : Option Nat} (start : stands iter standing) (lawful : options.comparator.Lawful)
    (lossless : options.port.Lossless) (ascending : KeysAscend options.comparator.compare entries)
    (fits : (TableBuilder.new options ⟨[], env.outcomes⟩).Fits entries)
    (enough : entries.length < fuel)
    (done : (buildTable env options cursor none fuel iter tableMeta).status = none)
    (small : ∀ file, (buildTable env options cursor none fuel iter tableMeta).file = some file →
      file.length < 2 ^ 64) {first last : Slice × Slice} (isFirst : entries.head? = some first)
    (isLast : entries.getLast? = some last) (notEmpty : last.1 ≠ []) :
    ∃ file table,
      (buildTable env options cursor none fuel iter tableMeta).file = some file ∧
      (buildTable env options cursor none fuel iter tableMeta).tableMeta =
        ⟨file.length, first.1, last.1⟩ ∧
      Table.openTable options (.ofBytes file) file.length = .ok table ∧
      ∀ readOptions, ∃ tableStands,
        Cursor.Walks (table.cursor readOptions) entries
          (fun target entry => (options.comparator.compare entry.1 target).isLT) tableStands ∧
        tableStands table.newIterator none := by
  cases created : env.created with
  | some error =>
      have shown := walks.current_seekToFirst start
      simp only [buildTable, shown, isFirst, created] at done
      cases done
  | none =>
      have built := @buildTable_eq _ _ env options _ fuel _ tableMeta _ _ _ walks _ start enough
        _ _ isFirst isLast notEmpty created
      rw [built] at done small ⊢
      dsimp only at done small ⊢
      have finished : ((TableBuilder.new options ⟨[], env.outcomes⟩).addAll
          entries).finish.status = none :=
        (Option.or_eq_none_iff.mp (Option.or_eq_none_iff.mp done).1).1
      obtain ⟨index, handles, blocks, footer, tableFile, rfl, offset⟩ :=
        TableBuilder.finish_tableFile lawful lossless env.outcomes ascending fits finished
      rw [if_pos finished, offset] at done small ⊢
      have positive : 0 < ((TableBuilder.new options ⟨[], env.outcomes⟩).addAll
          blocks.flatten).finish.file.contents.length := by
        have inside := tableFile.indexInside
        omega
      obtain ⟨table, opened, -, walks⟩ :=
        tableFile.walks (small _ (keep_file done positive)) lawful ascending
      exact ⟨_, table, keep_file done positive, rfl, opened, walks⟩

end Building

def internalBlocks : TableOptions := { Table.smallBlocks with comparator := internalKeyComparator }

def twoVersions : MemTable :=
  MemTable.new.addAll [(⟨⟨[1], 3, .kTypeValue⟩, [7]⟩, 1), (⟨⟨[1], 5, .kTypeDeletion⟩, []⟩, 2)]

theorem twoVersions_holds :
    twoVersions.Holds [⟨⟨[1], 5, .kTypeDeletion⟩, []⟩, ⟨⟨[1], 3, .kTypeValue⟩, [7]⟩] := by
  have one : (MemTable.new.addAll [(⟨⟨[1], 3, .kTypeValue⟩, [7]⟩, 1)]).Holds
      [⟨⟨[1], 3, .kTypeValue⟩, [7]⟩] :=
    MemTable.new_holds.add (by decide) (by decide) (by decide)
  exact one.add (by decide) (by decide) (by decide)

end BuildTable

end AhaTree
