import AhaTree.InternalKey
import AhaTree.BlockFormat
import Mathlib.Order.Defs.LinearOrder

/-!
# The comparators

The model of `comparator.cc` and of the comparator in `dbformat.cc`.  Besides
comparing, a comparator shortens the keys of an index: a separator lies between
the last key of one block and the first key of the next one, and a successor
does not lie below the last key of all.
-/

namespace AhaTree

open BlockBuilder (sharedLength)

structure Comparator where
  compare : Slice → Slice → Ordering
  findShortestSeparator : Slice → Slice → Slice
  findShortSuccessor : Slice → Slice

/-- What the comments of `comparator.h` ask of a comparator. -/
structure Comparator.Lawful (comparator : Comparator) : Prop where
  trans : Std.TransCmp comparator.compare
  notBelow : ∀ {start limit}, comparator.compare start limit = .lt →
    (comparator.compare start (comparator.findShortestSeparator start limit)).isLE
  belowLimit : ∀ {start limit}, comparator.compare start limit = .lt →
    comparator.compare (comparator.findShortestSeparator start limit) limit = .lt
  successor : ∀ key, (comparator.compare key (comparator.findShortSuccessor key)).isLE

/-! ## The bytewise comparator -/

instance : Std.TransCmp Slice.compare where
  eq_swap := by
    intro left right
    rcases Slice.compare_spec left right with ⟨result, less⟩ | ⟨result, same⟩ | ⟨result, more⟩
    · rw [result, Slice.compare_eq_gt.mpr less]
      rfl
    · rw [result, Slice.compare_eq_eq.mpr same.symm]
      rfl
    · rw [result, Slice.compare_eq_lt.mpr more]
      rfl
  isLE_trans := by
    intro low mid high lower upper
    rw [Slice.compare_isLE] at lower upper ⊢
    exact lower.trans upper

namespace Bytewise

def findShortestSeparator (start limit : Slice) : Slice :=
  let diffIndex := sharedLength start limit
  match start[diffIndex]?, limit[diffIndex]? with
  | some diffByte, some limitByte =>
      if diffByte.val < 255 ∧ diffByte.val + 1 < limitByte.val then
        start.take diffIndex ++ [Fin.ofNat 256 (diffByte.val + 1)]
      else start
  | _, _ => start

def findShortSuccessor : Slice → Slice
  | [] => []
  | byte :: bytes =>
      if byte.val ≠ 255 then [Fin.ofNat 256 (byte.val + 1)]
      else byte :: findShortSuccessor bytes

theorem incremented_val {byte : Byte} (less : byte.val < 255) :
    (Fin.ofNat 256 (byte.val + 1)).val = byte.val + 1 :=
  Nat.mod_eq_of_lt (by omega)

/-- Behind a common prefix only the first byte that differs counts. -/
theorem findShortestSeparator_cons (byte : Byte) (start limit : Slice) :
    findShortestSeparator (byte :: start) (byte :: limit) =
      byte :: findShortestSeparator start limit := by
  simp only [findShortestSeparator, sharedLength, if_true, List.getElem?_cons_succ,
    List.take_succ_cons]
  cases start[sharedLength start limit]? with
  | none => rfl
  | some diffByte =>
      cases limit[sharedLength start limit]? with
      | none => rfl
      | some limitByte =>
          dsimp only
          split <;> simp

theorem separator_spec {start limit : Slice} (less : start < limit) :
    start ≤ findShortestSeparator start limit ∧ findShortestSeparator start limit < limit := by
  induction start generalizing limit with
  | nil => exact ⟨le_refl _, less⟩
  | cons byte start ih =>
      cases limit with
      | nil => exact absurd less (List.not_lt_nil _)
      | cons limitByte limit =>
          rcases List.cons_lt_cons_iff.mp less with firstLess | ⟨rfl, restLess⟩
          · have differ : byte ≠ limitByte := firstLess.ne
            have values : byte.val < limitByte.val := firstLess
            rw [findShortestSeparator]
            simp only [sharedLength, if_neg differ, List.getElem?_cons_zero, List.take_zero,
              List.nil_append]
            split
            · rename_i room
              have value := incremented_val room.1
              refine ⟨?_, ?_⟩
              · exact (List.cons_lt_cons_iff.mpr (.inl (by
                  rw [Fin.lt_def, value]
                  omega))).le
              · exact List.cons_lt_cons_iff.mpr (.inl (by
                  rw [Fin.lt_def, value]
                  omega))
            · exact ⟨le_refl _, less⟩
          · obtain ⟨notBelow, below⟩ := ih restLess
            rw [findShortestSeparator_cons]
            refine ⟨?_, List.cons_lt_cons_iff.mpr (.inr ⟨rfl, below⟩)⟩
            rcases notBelow.lt_or_eq with lower | same
            · exact (List.cons_lt_cons_iff.mpr (.inr ⟨rfl, lower⟩)).le
            · rw [← same]

theorem findShortestSeparator_self (key : Slice) : findShortestSeparator key key = key := by
  induction key with
  | nil => rfl
  | cons byte key ih => rw [findShortestSeparator_cons, ih]

theorem successor_spec (key : Slice) : key ≤ findShortSuccessor key := by
  induction key with
  | nil => exact le_refl _
  | cons byte key ih =>
      rw [findShortSuccessor]
      split
      · rename_i notFull
        have value : (Fin.ofNat 256 (byte.val + 1)).val = byte.val + 1 :=
          incremented_val (by omega)
        exact (List.cons_lt_cons_iff.mpr (.inl (by
          rw [Fin.lt_def, value]
          omega))).le
      · rcases ih.lt_or_eq with lower | same
        · exact (List.cons_lt_cons_iff.mpr (.inr ⟨rfl, lower⟩)).le
        · rw [← same]

end Bytewise

def bytewiseComparator : Comparator where
  compare := Slice.compare
  findShortestSeparator := Bytewise.findShortestSeparator
  findShortSuccessor := Bytewise.findShortSuccessor

theorem bytewiseComparator_lawful : bytewiseComparator.Lawful where
  trans := inferInstanceAs (Std.TransCmp Slice.compare)
  notBelow := fun less =>
    Slice.compare_isLE.mpr (Bytewise.separator_spec (Slice.compare_eq_lt.mp less)).1
  belowLimit := fun less =>
    Slice.compare_eq_lt.mpr (Bytewise.separator_spec (Slice.compare_eq_lt.mp less)).2
  successor := fun key => Slice.compare_isLE.mpr (Bytewise.successor_spec key)

/-! ## The comparator of internal keys -/

theorem compareInternalKey_of_userKey {left right : Slice}
    (less : extractUserKey left < extractUserKey right) : compareInternalKey left right = .lt := by
  rw [compareInternalKey, Slice.compare_eq_lt.mpr less]

theorem isLE_compareInternalKey {left right : Slice} :
    (compareInternalKey left right).isLE ↔
      extractUserKey left < extractUserKey right ∨
        (extractUserKey left = extractUserKey right ∧
          decodeTrailer right ≤ decodeTrailer left) := by
  rcases Slice.compare_spec (extractUserKey left) (extractUserKey right) with
    ⟨result, less⟩ | ⟨result, same⟩ | ⟨result, more⟩
  · simp [compareInternalKey, result, less]
  · rw [compareInternalKey, result]
    simp only [same, lt_irrefl, false_or, true_and]
    exact Nat.isLE_compare
  · simp [compareInternalKey, result, more.not_gt, more.ne']

instance : Std.TransCmp compareInternalKey where
  eq_swap := by
    intro left right
    rw [compareInternalKey, compareInternalKey,
      @Std.OrientedCmp.eq_swap _ Slice.compare _ (extractUserKey left) (extractUserKey right)]
    cases Slice.compare (extractUserKey right) (extractUserKey left) with
    | lt => rfl
    | gt => rfl
    | eq => exact @Std.OrientedCmp.eq_swap Nat Ord.compare _ _ _
  isLE_trans := by
    intro low mid high lower upper
    rcases isLE_compareInternalKey.mp lower with less | ⟨same, newer⟩
    · refine isLE_compareInternalKey.mpr (.inl ?_)
      rcases isLE_compareInternalKey.mp upper with lessToo | ⟨sameToo, -⟩
      · exact less.trans lessToo
      · exact less.trans_eq sameToo
    · refine isLE_compareInternalKey.mpr ?_
      rcases isLE_compareInternalKey.mp upper with less | ⟨sameToo, newerToo⟩
      · exact .inl (same.trans_lt less)
      · exact .inr ⟨same.trans sameToo, newerToo.trans newer⟩

namespace InternalKeyComparator

/-- What a shortened user key is completed to. -/
def earliest (userKey : Slice) : Slice :=
  (InternalKey.mk userKey kMaxSequenceNumber kValueTypeForSeek).encode

def findShortestSeparator (start limit : Slice) : Slice :=
  let userStart := extractUserKey start
  let tmp := Bytewise.findShortestSeparator userStart (extractUserKey limit)
  if tmp.length < userStart.length ∧ Slice.compare userStart tmp = .lt then earliest tmp
  else start

def findShortSuccessor (key : Slice) : Slice :=
  let userKey := extractUserKey key
  let tmp := Bytewise.findShortSuccessor userKey
  if tmp.length < userKey.length ∧ Slice.compare userKey tmp = .lt then earliest tmp
  else key

theorem extractUserKey_earliest (userKey : Slice) : extractUserKey (earliest userKey) = userKey :=
  InternalKey.extractUserKey_encode _

end InternalKeyComparator

def internalKeyComparator : Comparator where
  compare := compareInternalKey
  findShortestSeparator := InternalKeyComparator.findShortestSeparator
  findShortSuccessor := InternalKeyComparator.findShortSuccessor

open InternalKeyComparator in
theorem internalKeyComparator_lawful : internalKeyComparator.Lawful where
  trans := inferInstanceAs (Std.TransCmp compareInternalKey)
  notBelow := by
    intro start limit less
    change (compareInternalKey start (findShortestSeparator start limit)).isLE
    rw [findShortestSeparator]
    split
    · rename_i shorter
      apply isLE_compareInternalKey.mpr
      rw [extractUserKey_earliest]
      exact .inl (Slice.compare_eq_lt.mp shorter.2)
    · exact isLE_compareInternalKey.mpr (.inr ⟨rfl, le_refl _⟩)
  belowLimit := by
    intro start limit less
    change compareInternalKey (findShortestSeparator start limit) limit = .lt
    rw [findShortestSeparator]
    split
    · rename_i shorter
      apply compareInternalKey_of_userKey
      rw [extractUserKey_earliest]
      rcases (extractUserKey_le_of_compare less).lt_or_eq with userLess | same
      · exact (Bytewise.separator_spec userLess).2
      · have grown := Slice.compare_eq_lt.mp shorter.2
        rw [← same, Bytewise.findShortestSeparator_self] at grown
        exact absurd grown (lt_irrefl _)
    · exact less
  successor := by
    intro key
    change (compareInternalKey key (findShortSuccessor key)).isLE
    rw [findShortSuccessor]
    split
    · rename_i shorter
      apply isLE_compareInternalKey.mpr
      rw [extractUserKey_earliest]
      exact .inl (Slice.compare_eq_lt.mp shorter.2)
    · exact isLE_compareInternalKey.mpr (.inr ⟨rfl, le_refl _⟩)

end AhaTree
