import Mathlib.Data.List.Basic
import Mathlib.Data.List.Pairwise

/-!
# Merging sorted lists

A merge of any number of lists that scans all heads for the smallest one before
each item.  The position of the merge is what is left of each list; the items
it will still deliver are described by `Merges`.
-/

namespace Lib

variable {item : Type}

/-- The smallest head, with the place of its list.  A later head replaces an
earlier one only if it is strictly smaller. -/
def findSmallest (less : item → item → Bool) :
    Nat → Option (Nat × item) → List (List item) → Option (Nat × item)
  | _, smallest, [] => smallest
  | place, smallest, [] :: lists => findSmallest less (place + 1) smallest lists
  | place, none, (head :: _) :: lists =>
      findSmallest less (place + 1) (some (place, head)) lists
  | place, some smallest, (head :: _) :: lists =>
      if less head smallest.2 then
        findSmallest less (place + 1) (some (place, head)) lists
      else findSmallest less (place + 1) (some smallest) lists

def smallest (less : item → item → Bool) (lists : List (List item)) :
    Option (Nat × item) :=
  findSmallest less 0 none lists

/-- The list at the place has moved on by one item. -/
def advance (lists : List (List item)) (place : Nat) : List (List item) :=
  lists.modify place List.tail

/-- The merge of the lists delivers exactly these items, in this order. -/
def Merges (less : item → item → Bool) : List (List item) → List item → Prop
  | lists, [] => smallest less lists = none
  | lists, head :: stream => ∃ place, smallest less lists = some (place, head) ∧
      Merges less (advance lists place) stream

/-- Take the smallest head until all lists are used up. -/
def merge (less : item → item → Bool) : Nat → List (List item) → List item
  | 0, _ => []
  | fuel + 1, lists =>
      match smallest less lists with
      | none => []
      | some (place, head) => head :: merge less fuel (advance lists place)

/-- `less` is the strict part of a total preorder. -/
structure StrictOrder (less : item → item → Bool) : Prop where
  asymm : ∀ left right, less left right = true → less right left = false
  trans : ∀ low mid high, less mid low = false → less high mid = false →
    less high low = false

namespace StrictOrder

variable {less : item → item → Bool} (order : StrictOrder less)

include order

theorem irrefl (only : item) : less only only = false := by
  cases same : less only only with
  | false => rfl
  | true => exact absurd (order.asymm only only same) (by simp [same])

/-- What the scan has found, in terms of the candidate it started with. -/
theorem findSmallest_spec (place : Nat) (candidate : Option (Nat × item))
    (lists : List (List item)) :
    match findSmallest less place candidate lists with
    | none => candidate = none ∧ ∀ list ∈ lists, list = []
    | some found =>
        (candidate = some found ∨ ∃ offset rest,
          found.1 = place + offset ∧ lists[offset]? = some (found.2 :: rest)) ∧
        (∀ start ∈ candidate, less start.2 found.2 = false) ∧
        ∀ list ∈ lists, ∀ head ∈ list.head?, less head found.2 = false := by
  induction lists generalizing place candidate with
  | nil =>
      cases candidate with
      | none => simp [findSmallest]
      | some start => simp [findSmallest, order.irrefl]
  | cons list lists ih =>
      -- a place among the later lists is one further in the whole row
      have shift : ∀ (candidate : Option (Nat × item)) (found : Nat × item),
          (candidate = some found ∨ ∃ offset rest, found.1 = place + 1 + offset ∧
            lists[offset]? = some (found.2 :: rest)) →
          candidate = some found ∨ ∃ offset rest, found.1 = place + offset ∧
            (list :: lists)[offset]? = some (found.2 :: rest) := by
        rintro candidate found (same | ⟨offset, rest, placeEq, atOffset⟩)
        · exact .inl same
        · exact .inr ⟨offset + 1, rest, by omega, by simpa using atOffset⟩
      cases list with
      | nil =>
          have later := ih (place + 1) candidate
          rw [findSmallest]
          split at later
          · exact ⟨later.1, by simpa using later.2⟩
          · rename_i found _
            exact ⟨shift _ found later.1, later.2.1, by simpa using later.2.2⟩
      | cons head rest =>
          have here : ∀ found, (some (place, head) = some found ∨
              ∃ offset rest, found.1 = place + 1 + offset ∧
                lists[offset]? = some (found.2 :: rest)) →
              ∃ offset others, found.1 = place + offset ∧
                ((head :: rest) :: lists)[offset]? = some (found.2 :: others) := by
            rintro found known
            rcases shift _ found known with same | elsewhere
            · cases same
              exact ⟨0, rest, rfl, rfl⟩
            · exact elsewhere
          have taken := ih (place + 1) (some (place, head))
          cases candidate with
          | none =>
              rw [findSmallest]
              split at taken
              · simp at taken
              · rename_i found _
                refine ⟨.inr (here found taken.1), by simp, ?_⟩
                have headLe := taken.2.1 (place, head) rfl
                simpa [headLe] using taken.2.2
          | some start =>
              rw [findSmallest]
              by_cases smaller : less head start.2 = true
              · rw [if_pos smaller]
                split at taken
                · simp at taken
                · rename_i found _
                  have headLe : less head found.2 = false :=
                    taken.2.1 (place, head) rfl
                  refine ⟨.inr (here found taken.1), ?_, ?_⟩
                  · rintro _ ⟨⟩
                    exact order.trans found.2 head start.2 headLe
                      (order.asymm head start.2 smaller)
                  · simpa [headLe] using taken.2.2
              · rw [if_neg smaller]
                have kept := ih (place + 1) (some start)
                split at kept
                · simp at kept
                · rename_i found _
                  have startLe : less start.2 found.2 = false := kept.2.1 start rfl
                  refine ⟨shift _ found kept.1, kept.2.1, ?_⟩
                  have headLe : less head found.2 = false :=
                    order.trans found.2 start.2 head startLe (by simpa using smaller)
                  simpa [headLe] using kept.2.2

theorem smallest_eq_none_iff (lists : List (List item)) :
    smallest less lists = none ↔ lists.flatten = [] := by
  have spec := order.findSmallest_spec 0 none lists
  rw [List.flatten_eq_nil_iff]
  rw [smallest]
  split at spec
  · rename_i missing
    simp only [missing, true_iff]
    exact spec.2
  · rename_i found isFound
    simp only [isFound, reduceCtorEq, false_iff, not_forall]
    obtain ⟨offset, rest, -, atOffset⟩ := spec.1.resolve_left (by simp)
    exact ⟨_, List.mem_of_getElem? atOffset, by simp⟩

theorem smallest_spec {lists : List (List item)} {place : Nat} {head : item}
    (found : smallest less lists = some (place, head)) :
    (∃ rest, lists[place]? = some (head :: rest)) ∧
      ∀ list ∈ lists, ∀ other ∈ list.head?, less other head = false := by
  have spec := order.findSmallest_spec 0 none lists
  rw [smallest] at found
  simp only [found] at spec
  obtain ⟨offset, rest, placeEq, atOffset⟩ := spec.1.resolve_left (by simp)
  have same : place = offset := by simpa using placeEq
  exact ⟨⟨rest, same ▸ atOffset⟩, spec.2.2⟩

omit order in
theorem flatten_advance_perm {lists : List (List item)} {place : Nat}
    {head : item} {rest : List item}
    (atPlace : lists[place]? = some (head :: rest)) :
    (head :: (advance lists place).flatten).Perm lists.flatten := by
  obtain ⟨inside, same⟩ := List.getElem?_eq_some_iff.mp atPlace
  have whole : lists = lists.take place ++ (head :: rest) :: lists.drop (place + 1) := by
    rw [← same, List.getElem_cons_drop, List.take_append_drop]
  have moved : advance lists place =
      lists.take place ++ rest :: lists.drop (place + 1) := by
    rw [advance, List.modify_eq_take_cons_drop inside, same, List.tail_cons]
  rw [moved]
  conv => rhs; rw [whole]
  simp only [List.flatten_append, List.flatten_cons, List.cons_append]
  exact List.perm_middle.symm

omit order in
theorem sorted_advance {lists : List (List item)} {related : item → item → Prop}
    (sorted : ∀ list ∈ lists, list.Pairwise related) (place : Nat) :
    ∀ list ∈ advance lists place, list.Pairwise related := by
  intro list member
  obtain ⟨index, hit⟩ := List.getElem?_of_mem member
  rw [advance, List.getElem?_modify, Option.map_eq_map,
    Option.map_eq_some_iff] at hit
  obtain ⟨before, atIndex, moved⟩ := hit
  have beforeSorted := sorted before (List.mem_of_getElem? atIndex)
  rw [← moved]
  split
  · exact beforeSorted.sublist (List.tail_sublist before)
  · exact beforeSorted

theorem merges_perm {lists : List (List item)} {stream : List item}
    (merges : Merges less lists stream) : stream.Perm lists.flatten := by
  induction stream generalizing lists with
  | nil => rw [(order.smallest_eq_none_iff lists).mp merges]
  | cons head stream ih =>
      obtain ⟨place, found, rest⟩ := merges
      obtain ⟨⟨list, atPlace⟩, -⟩ := order.smallest_spec found
      exact ((ih rest).cons head).trans (flatten_advance_perm atPlace)

omit order in
theorem merge_eq_of_merges {lists : List (List item)} {stream : List item} {fuel : Nat}
    (merges : Merges less lists stream) (enough : stream.length ≤ fuel) :
    merge less fuel lists = stream := by
  induction stream generalizing lists fuel with
  | nil =>
      have none : smallest less lists = none := merges
      cases fuel with
      | zero => rfl
      | succ fuel => rw [merge, none]
  | cons head stream ih =>
      obtain ⟨place, found, rest⟩ := merges
      obtain ⟨fuel, rfl⟩ : ∃ count, fuel = count + 1 :=
        ⟨fuel - 1, by simp only [List.length_cons] at enough; omega⟩
      rw [merge, found]
      exact congrArg (head :: ·) (ih rest (by simpa using enough))

/-- The merge of sorted lists delivers all their items in order. -/
theorem exists_merges (lists : List (List item))
    (sorted : ∀ list ∈ lists,
      list.Pairwise (fun front behind => less behind front = false)) :
    ∃ stream, Merges less lists stream ∧
      stream.Pairwise (fun front behind => less behind front = false) := by
  generalize size : lists.flatten.length = count
  induction count generalizing lists with
  | zero =>
      have empty := List.eq_nil_of_length_eq_zero size
      exact ⟨[], (order.smallest_eq_none_iff lists).mpr empty, List.Pairwise.nil⟩
  | succ count ih =>
      cases found : smallest less lists with
      | none =>
          rw [(order.smallest_eq_none_iff lists).mp found] at size
          simp at size
      | some result =>
          obtain ⟨place, head⟩ := result
          obtain ⟨⟨rest, atPlace⟩, least⟩ := order.smallest_spec found
          have permuted := flatten_advance_perm atPlace
          obtain ⟨stream, merges, streamSorted⟩ :=
            ih (advance lists place) (sorted_advance sorted place) (by
              have length := permuted.length_eq
              simp only [List.length_cons] at length
              omega)
          refine ⟨head :: stream, ⟨place, found, merges⟩, ?_⟩
          refine List.pairwise_cons.mpr ⟨?_, streamSorted⟩
          intro other later
          have inLists : other ∈ lists.flatten :=
            permuted.subset
              (List.mem_cons_of_mem _ ((order.merges_perm merges).subset later))
          obtain ⟨list, isList, inside⟩ := List.mem_flatten.mp inLists
          cases list with
          | nil => cases inside
          | cons first items =>
              have firstLe := least (first :: items) isList first rfl
              rcases List.mem_cons.mp inside with rfl | behind
              · exact firstLe
              · exact order.trans head first other firstLe
                  ((List.pairwise_cons.mp (sorted _ isList)).1 other behind)

/-- What `merge` delivers from sorted lists, with fuel for every item. -/
theorem merge_spec (lists : List (List item))
    (sorted : ∀ list ∈ lists,
      list.Pairwise (fun front behind => less behind front = false)) :
    (merge less lists.flatten.length lists).Perm lists.flatten ∧
      (merge less lists.flatten.length lists).Pairwise
        (fun front behind => less behind front = false) := by
  obtain ⟨stream, merges, streamSorted⟩ := order.exists_merges lists sorted
  have permuted := order.merges_perm merges
  rw [merge_eq_of_merges merges (Nat.le_of_eq permuted.length_eq)]
  exact ⟨permuted, streamSorted⟩

end StrictOrder

end Lib
