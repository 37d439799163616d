import Mathlib.Order.Lattice
import Mathlib.Data.List.Pairwise
import Mathlib.Data.List.InsertIdx
import Mathlib.Data.List.Nodup
import Mathlib.Data.List.Perm.Basic

/-!
# Lists of pairs in ascending order of their keys

A list with strictly ascending keys is a finite map.  `place` puts a pair where
its key belongs, in the place of a pair with that key if there is one; insertion
at an offset is `place` as soon as the offset parts the smaller keys from the
others.
-/

namespace Lib

variable {κ β : Type} [LinearOrder κ] {key : κ} {value : β} {items before after : List (κ × β)}

def Ascending (items : List (κ × β)) : Prop :=
  items.Pairwise (fun left right => left.1 < right.1)

def place (key : κ) (value : β) (items : List (κ × β)) : List (κ × β) :=
  items.filter (fun item => item.1 < key) ++ (key, value) ::
    items.filter (fun item => key < item.1)

theorem ascending_append : Ascending (before ++ after) ↔
    Ascending before ∧ Ascending after ∧
      ∀ left ∈ before, ∀ right ∈ after, left.1 < right.1 := by
  exact List.pairwise_append

theorem Ascending.sublist {shorter : List (κ × β)} (ascending : Ascending items)
    (sublist : shorter.Sublist items) : Ascending shorter :=
  List.Pairwise.sublist sublist ascending

/-- The first key may be lowered. -/
theorem Ascending.lower {old : κ × β} (ascending : Ascending (old :: items))
    (less : key ≤ old.1) : Ascending ((key, value) :: items) := by
  obtain ⟨below, later⟩ := List.pairwise_cons.mp ascending
  exact List.pairwise_cons.mpr ⟨fun item member => less.trans_lt (below item member), later⟩

/-- A key has one value. -/
theorem Ascending.value_eq {other : β} (ascending : Ascending items)
    (first : (key, value) ∈ items) (second : (key, other) ∈ items) : value = other := by
  induction items with
  | nil => exact absurd first List.not_mem_nil
  | cons head tail ih =>
      obtain ⟨below, later⟩ := List.pairwise_cons.mp ascending
      rcases List.mem_cons.mp first with rfl | firstLater
      · rcases List.mem_cons.mp second with same | secondLater
        · exact ((Prod.ext_iff.mp same).2).symm
        · exact absurd (below _ secondLater) (lt_irrefl key)
      · rcases List.mem_cons.mp second with rfl | secondLater
        · exact absurd (below _ firstLater) (lt_irrefl key)
        · exact ih later firstLater secondLater

theorem mem_place {item : κ × β} :
    item ∈ place key value items ↔ item = (key, value) ∨ (item ∈ items ∧ item.1 ≠ key) := by
  rw [place]
  simp only [List.mem_append, List.mem_cons, List.mem_filter, decide_eq_true_eq]
  constructor
  · rintro (⟨member, less⟩ | same | ⟨member, more⟩)
    · exact .inr ⟨member, less.ne⟩
    · exact .inl same
    · exact .inr ⟨member, more.ne'⟩
  · rintro (same | ⟨member, different⟩)
    · exact .inr (.inl same)
    · rcases lt_or_gt_of_ne different with less | more
      · exact .inl ⟨member, less⟩
      · exact .inr (.inr ⟨member, more⟩)

/-- What is placed in a part is placed in the whole, if the other part lacks the key. -/
theorem mem_place_append_low {others : List (κ × β)} (apart : ∀ item ∈ others, item.1 ≠ key)
    {item : κ × β} :
    item ∈ place key value items ++ others ↔ item ∈ place key value (items ++ others) := by
  rw [List.mem_append, mem_place, mem_place, List.mem_append]
  constructor
  · rintro ((same | ⟨member, different⟩) | other)
    · exact .inl same
    · exact .inr ⟨.inl member, different⟩
    · exact .inr ⟨.inr other, apart item other⟩
  · rintro (same | ⟨member | other, different⟩)
    · exact .inl (.inl same)
    · exact .inl (.inr ⟨member, different⟩)
    · exact .inr other

theorem mem_place_append_high {others : List (κ × β)} (apart : ∀ item ∈ others, item.1 ≠ key)
    {item : κ × β} :
    item ∈ others ++ place key value items ↔ item ∈ place key value (others ++ items) := by
  rw [List.mem_append, or_comm, ← List.mem_append, mem_place_append_low apart, mem_place,
    mem_place, List.mem_append, List.mem_append, or_comm (a := item ∈ others)]

theorem place_length_le : (place key value items).length ≤ items.length + 1 := by
  have parted : (items.filter fun item => item.1 < key).length +
      (items.filter fun item => key < item.1).length ≤ items.length := by
    induction items with
    | nil => exact Nat.le_refl 0
    | cons head tail ih =>
        rw [List.filter_cons, List.filter_cons, List.length_cons]
        by_cases below : head.1 < key
        · rw [if_pos (decide_eq_true below), if_neg (by simpa using below.le), List.length_cons]
          omega
        · rw [if_neg (by simpa using below)]
          split_ifs
          · rw [List.length_cons]
            omega
          · omega
  rw [place, List.length_append, List.length_cons]
  omega

theorem Ascending.place (ascending : Ascending items) : Ascending (place key value items) := by
  rw [Lib.place, ascending_append]
  refine ⟨ascending.sublist List.filter_sublist, ?_, ?_⟩
  · refine List.pairwise_cons.mpr ⟨?_, ascending.sublist List.filter_sublist⟩
    intro item member
    simpa using (List.mem_filter.mp member).2
  · intro left member right later
    have less : left.1 < key := by simpa using (List.mem_filter.mp member).2
    rcases List.mem_cons.mp later with rfl | later
    · exact less
    · have more : key < right.1 := by simpa using (List.mem_filter.mp later).2
      exact less.trans more

/-- What is placed between smaller and greater keys. -/
theorem place_between (less : ∀ item ∈ before, item.1 < key)
    (more : ∀ item ∈ after, key < item.1) :
    place key value (before ++ after) = before ++ (key, value) :: after := by
  have beforeBelow : before.filter (fun item => item.1 < key) = before :=
    List.filter_eq_self.mpr (by simpa using less)
  have afterBelow : after.filter (fun item => item.1 < key) = [] :=
    List.filter_eq_nil_iff.mpr (by simpa using fun item member => (more item member).le)
  have beforeAbove : before.filter (fun item => key < item.1) = [] :=
    List.filter_eq_nil_iff.mpr (by simpa using fun item member => (less item member).le)
  have afterAbove : after.filter (fun item => key < item.1) = after :=
    List.filter_eq_self.mpr (by simpa using more)
  rw [place, List.filter_append, List.filter_append, beforeBelow, afterBelow, beforeAbove,
    afterAbove, List.append_nil, List.nil_append]

theorem place_last (less : ∀ item ∈ items, item.1 < key) :
    place key value items = items ++ [(key, value)] := by
  have placed := @place_between _ _ _ key value items [] less (by simp)
  rwa [List.append_nil] at placed

theorem place_same {old : β} (ascending : Ascending (before ++ (key, old) :: after)) :
    place key value (before ++ (key, old) :: after) = before ++ (key, value) :: after := by
  obtain ⟨-, later, less⟩ := ascending_append.mp ascending
  have more := (List.pairwise_cons.mp later).1
  have below := fun item member => less item member (key, old) List.mem_cons_self
  rw [← @place_between κ β _ key value before after below more]
  simp [place, List.filter_append]

/-- An offset that parts the keys below `key` from the others. -/
structure Parts (items : List (κ × β)) (key : κ) (offset : Nat) : Prop where
  inside : offset ≤ items.length
  below : ∀ item ∈ items.take offset, item.1 < key
  behind : ∀ item ∈ items.drop offset, key ≤ item.1

/-- Only one offset lies between smaller and greater keys. -/
theorem Parts.offset_eq {offset : Nat} (parts : Parts (before ++ after) key offset)
    (less : ∀ item ∈ before, item.1 < key) (more : ∀ item ∈ after, key < item.1) :
    offset = before.length := by
  obtain ⟨inside, below, behind⟩ := parts
  rcases Nat.lt_trichotomy offset before.length with short | same | long
  · have isBefore : before[offset] ∈ (before ++ after).drop offset := by
      rw [List.drop_append_of_le_length (Nat.le_of_lt short), List.drop_eq_getElem_cons short]
      exact List.mem_append_left _ List.mem_cons_self
    exact absurd (less _ (List.getElem_mem short)) (not_lt.mpr (behind _ isBefore))
  · exact same
  · obtain ⟨item, later, rfl⟩ : ∃ item later, after = item :: later := by
      rw [List.length_append] at inside
      exact List.exists_cons_of_length_pos (by omega)
    have isBelow : item ∈ (before ++ item :: later).take offset := by
      rw [List.take_append]
      refine List.mem_append_right _ ?_
      obtain ⟨more, isMore⟩ : ∃ more, offset - before.length = more + 1 :=
        ⟨offset - before.length - 1, by omega⟩
      rw [isMore]
      exact List.mem_cons_self
    exact absurd (more item List.mem_cons_self) (not_lt.mpr (below item isBelow).le)

/-- In ascending order, where other keys than `key` may occur more than once. -/
def AscendingOnce (key : κ) (items : List (κ × β)) : Prop :=
  items.Pairwise (fun left right => left.1 ≤ right.1 ∧ (right.1 = key → left.1 < key))

theorem Ascending.once (ascending : Ascending items) (key : κ) : AscendingOnce key items := by
  refine List.Pairwise.imp ?_ ascending
  intro left right less
  exact ⟨less.le, fun isKey => isKey ▸ less⟩

/-- In ascending order the neighbours of an offset tell about all others. -/
theorem AscendingOnce.parts {offset : Nat} (ascending : AscendingOnce key items)
    (inside : offset ≤ items.length)
    (before : ∀ small : 0 < offset, (items[offset - 1]).1 < key)
    (behind : ∀ large : offset < items.length, key ≤ (items[offset]).1) :
    Parts items key offset := by
  have ordered := List.pairwise_iff_getElem.mp ascending
  refine ⟨inside, ?_, ?_⟩
  · intro item member
    obtain ⟨index, small, rfl⟩ := List.mem_take_iff_getElem.mp member
    rcases Nat.lt_or_ge index (offset - 1) with earlier | last
    · exact (ordered index (offset - 1) (by omega) (by omega) earlier).1.trans_lt
        (before (by omega))
    · have same : index = offset - 1 := by omega
      subst same
      exact before (by omega)
  · intro item member
    obtain ⟨index, large, rfl⟩ := List.mem_drop_iff_getElem.mp member
    rcases Nat.eq_zero_or_pos index with rfl | later
    · exact behind (by omega)
    · exact (behind (by omega)).trans
        (ordered offset (offset + index) (by omega) (by omega) (by omega)).1

omit [LinearOrder κ] in
theorem insertIdx_append (before after : List (κ × β)) (item : κ × β) :
    (before ++ after).insertIdx before.length item = before ++ item :: after := by
  induction before with
  | nil => rfl
  | cons head before ih =>
      simp only [List.cons_append, List.length_cons, List.insertIdx_succ_cons, ih]

/-- Insertion between the smaller and the greater keys. -/
theorem Parts.insertIdx {offset : Nat} (parts : Parts items key offset)
    (absent : ∀ item ∈ items, item.1 ≠ key) :
    items.insertIdx offset (key, value) = Lib.place key value items := by
  have inserted := insertIdx_append (items.take offset) (items.drop offset) (key, value)
  rw [List.take_append_drop, List.length_take, Nat.min_eq_left parts.inside] at inserted
  have more : ∀ item ∈ items.drop offset, key < item.1 := fun item member =>
    lt_of_le_of_ne (parts.behind item member)
      (absent item (List.mem_of_mem_drop member)).symm
  rw [inserted, ← place_between parts.below more, List.take_append_drop]

/-- One offset parts the keys. -/
theorem Parts.unique {first second : Nat} (parts : Parts items key first)
    (others : Parts items key second) : first = second := by
  have inside := parts.inside
  have othersInside := others.inside
  rcases Nat.lt_trichotomy first second with before | same | behind
  · exact absurd (others.below items[first] (List.mem_take_iff_getElem.mpr
      ⟨first, by omega, rfl⟩)) (not_lt.mpr (parts.behind items[first]
        (List.mem_drop_iff_getElem.mpr ⟨0, by omega, rfl⟩)))
  · exact same
  · exact absurd (parts.below items[second] (List.mem_take_iff_getElem.mpr
      ⟨second, by omega, rfl⟩)) (not_lt.mpr (others.behind items[second]
        (List.mem_drop_iff_getElem.mpr ⟨0, by omega, rfl⟩)))

/-- The offset counts the smaller keys. -/
theorem Parts.countP_eq {offset : Nat} (parts : Parts items key offset) :
    items.countP (fun item => item.1 < key) = offset := by
  have all : (items.take offset).countP (fun item => item.1 < key) = offset := by
    rw [List.countP_eq_length.mpr fun item member => decide_eq_true (parts.below item member)]
    exact List.length_take_of_le parts.inside
  have none : (items.drop offset).countP (fun item => item.1 < key) = 0 :=
    List.countP_eq_zero.mpr fun item member => by simpa using parts.behind item member
  calc items.countP (fun item => item.1 < key)
      = (items.take offset ++ items.drop offset).countP (fun item => item.1 < key) := by
        rw [List.take_append_drop]
    _ = offset := by rw [List.countP_append, all, none, Nat.add_zero]

/-- Behind the parted items there are only such that are not below the key. -/
theorem Parts.append_high {offset : Nat} (parts : Parts before key offset)
    (high : ∀ item ∈ after, key ≤ item.1) : Parts (before ++ after) key offset where
  inside := by
    rw [List.length_append]
    exact Nat.le_add_right_of_le parts.inside
  below item member := parts.below item (by
    rwa [List.take_append_of_le_length parts.inside] at member)
  behind item member := by
    rw [List.drop_append_of_le_length parts.inside] at member
    rcases List.mem_append.mp member with ours | later
    · exact parts.behind item ours
    · exact high item later

/-- In front of the parted items there are only such that are below the key. -/
theorem Parts.append_low {offset : Nat} (parts : Parts after key offset)
    (low : ∀ item ∈ before, item.1 < key) :
    Parts (before ++ after) key (before.length + offset) where
  inside := by
    rw [List.length_append]
    exact Nat.add_le_add_left parts.inside _
  below item member := by
    rw [List.take_length_add_append] at member
    rcases List.mem_append.mp member with earlier | ours
    · exact low item earlier
    · exact parts.below item ours
  behind item member := parts.behind item (by rwa [List.drop_length_add_append] at member)

/-- The offset of the pair with the key, if there is one. -/
theorem Parts.offset_of_key {offset found : Nat} (parts : Parts items key found)
    (ascending : Ascending items) (inside : offset < items.length)
    (isKey : (items[offset]).1 = key) : found = offset := by
  have ordered := List.pairwise_iff_getElem.mp ascending
  refine parts.unique ((ascending.once key).parts (Nat.le_of_lt inside) (fun small => ?_)
    (fun _ => isKey.ge))
  exact isKey ▸ ordered (offset - 1) offset (by omega) inside (by omega)

/-- A new value for a key that the list has. -/
theorem Ascending.set_eq_place {offset : Nat} (ascending : Ascending items)
    (inside : offset < items.length) (isKey : (items[offset]).1 = key) :
    items.set offset (key, value) = Lib.place key value items := by
  obtain ⟨before, old, after, isList, sameLength⟩ : ∃ before old after,
      items = before ++ (key, old) :: after ∧ before.length = offset := by
    refine ⟨items.take offset, (items[offset]).2, items.drop (offset + 1), ?_,
      List.length_take_of_le (Nat.le_of_lt inside)⟩
    have parted := List.take_append_drop offset items
    rw [List.drop_eq_getElem_cons inside] at parted
    exact isKey ▸ parted.symm
  subst isList
  rw [place_same ascending, ← sameLength, List.set_append_right _ _ (Nat.le_refl _),
    Nat.sub_self, List.set_cons_zero]

/-- Insertion that keeps the order is insertion where the key belongs. -/
theorem Parts.of_insertIdx {offset : Nat} (inside : offset ≤ items.length)
    (ascending : Ascending (items.insertIdx offset (key, value))) :
    Parts items key offset := by
  have inserted := insertIdx_append (items.take offset) (items.drop offset) (key, value)
  rw [List.take_append_drop, List.length_take, Nat.min_eq_left inside] at inserted
  rw [inserted, ascending_append] at ascending
  obtain ⟨-, later, less⟩ := ascending
  exact ⟨inside, fun item member => less item member _ List.mem_cons_self,
    fun item member => ((List.pairwise_cons.mp later).1 item member).le⟩

/-! ## Several pairs -/

/-- Two ascending lists with the same pairs are the same. -/
theorem Ascending.ext {others : List (κ × β)} (ascending : Ascending items)
    (othersAscending : Ascending others) (same : ∀ item, item ∈ items ↔ item ∈ others) :
    items = others := by
  have distinct : ∀ {list : List (κ × β)}, Ascending list → list.Nodup := by
    intro list order
    refine List.Pairwise.imp ?_ order
    intro front behind less equal
    exact absurd less (equal ▸ lt_irrefl _)
  refine List.Perm.eq_of_pairwise ?_ ascending othersAscending
    ((List.perm_ext_iff_of_nodup (distinct ascending) (distinct othersAscending)).mpr same)
  intro front behind _ _ less greater
  exact absurd less greater.asymm

/-- Of two ascending lists, one with pairs of the other and with all its keys. -/
theorem Ascending.eq_of_keys {others : List (κ × β)} (ascending : Ascending items)
    (othersAscending : Ascending others) (members : ∀ item ∈ items, item ∈ others)
    (keys : ∀ other ∈ others, other.1 ∈ items.map Prod.fst) : items = others := by
  refine ascending.ext othersAscending fun item => ⟨members item, fun isOther => ?_⟩
  obtain ⟨found, isFound, sameKey⟩ := List.mem_map.mp (keys item isOther)
  have sameValue := othersAscending.value_eq (members found isFound)
    (show (found.1, item.2) ∈ others from sameKey ▸ isOther)
  have same : found = item := Prod.ext sameKey sameValue
  exact same ▸ isFound

theorem mem_keys_place {other : κ} :
    other ∈ (place key value items).map Prod.fst ↔ other = key ∨ other ∈ items.map Prod.fst := by
  simp only [List.mem_map, mem_place]
  constructor
  · rintro ⟨item, rfl | ⟨member, -⟩, rfl⟩
    · exact .inl rfl
    · exact .inr ⟨item, member, rfl⟩
  · rintro (rfl | ⟨item, member, rfl⟩)
    · exact ⟨_, .inl rfl, rfl⟩
    · by_cases same : item.1 = key
      · exact ⟨_, .inl rfl, same.symm⟩
      · exact ⟨item, .inr ⟨member, same⟩, rfl⟩

/-- One pair is placed after the other. -/
def places (base : List (κ × β)) (added : List (κ × β)) : List (κ × β) :=
  added.foldl (fun map item => place item.1 item.2 map) base

theorem Ascending.places (ascending : Ascending items) (added : List (κ × β)) :
    Ascending (places items added) := by
  induction added generalizing items with
  | nil => exact ascending
  | cons item added ih => exact ih ascending.place

theorem mem_keys_places {added : List (κ × β)} {other : κ} :
    other ∈ (places items added).map Prod.fst ↔
      other ∈ items.map Prod.fst ∨ other ∈ added.map Prod.fst := by
  induction added generalizing items with
  | nil => simp [places]
  | cons item added ih =>
      rw [places, List.foldl_cons, ← places, ih, mem_keys_place, List.map_cons, List.mem_cons,
        or_comm (a := other = item.1), or_assoc]

theorem mem_places {added : List (κ × β)}
    (distinct : added.Pairwise (fun left right => left.1 ≠ right.1)) {item : κ × β} :
    item ∈ places items added ↔
      item ∈ added ∨ (item ∈ items ∧ ∀ other ∈ added, item.1 ≠ other.1) := by
  induction added generalizing items with
  | nil => simp [places]
  | cons first added ih =>
      obtain ⟨apart, others⟩ := List.pairwise_cons.mp distinct
      rw [places, List.foldl_cons, ← places, ih others, mem_place, List.mem_cons]
      constructor
      · rintro (later | ⟨rfl | ⟨old, different⟩, absent⟩)
        · exact .inl (.inr later)
        · exact .inl (.inl rfl)
        · exact .inr ⟨old, List.forall_mem_cons.mpr ⟨different, absent⟩⟩
      · rintro ((rfl | later) | ⟨old, absent⟩)
        · exact .inr ⟨.inl rfl, apart⟩
        · exact .inl later
        · obtain ⟨different, later⟩ := List.forall_mem_cons.mp absent
          exact .inr ⟨.inr ⟨old, different⟩, later⟩

/-- Pairs in order are placed behind those that are there. -/
theorem places_last (ascending : Ascending (items ++ after)) :
    places items after = items ++ after := by
  induction after generalizing items with
  | nil => simp [places]
  | cons item after ih =>
      obtain ⟨-, -, less⟩ := ascending_append.mp ascending
      rw [places, List.foldl_cons, ← places,
        place_last (fun other member => less other member item List.mem_cons_self), ih]
      · rw [List.append_assoc, List.singleton_append]
      · rwa [List.append_assoc, List.singleton_append]

end Lib
