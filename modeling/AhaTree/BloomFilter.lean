import AhaTree.InternalKey
import Mathlib.Data.List.GetD
import Mathlib.Data.Nat.Bitwise

/-!
# Bloom filters

The model of `hash.cc` and `bloom.cc`.  A filter is an array of bits with the
number of probes behind it.  Every key that the filter was created from sets the
bits that a later test of the key probes.
-/

namespace AhaTree

/-! ## Hashing -/

namespace Hash

def m : Nat := 0xc6a4a793

def r : Nat := 24

/-- The loop over four bytes at a time; it returns what is left of the data. -/
def words (h : Nat) : Slice → Nat × Slice
  | byte0 :: byte1 :: byte2 :: byte3 :: data =>
      let mixed := (h + decodeFixed [byte0, byte1, byte2, byte3]) % 2 ^ 32 * m % 2 ^ 32
      words (mixed ^^^ (mixed >>> 16)) data
  | data => (h, data)

/-- The last byte of the remaining ones to be picked up. -/
def finish (h : Nat) (byte : Byte) : Nat :=
  let mixed := (h + byte.val) % 2 ^ 32 * m % 2 ^ 32
  mixed ^^^ (mixed >>> r)

/-- The `switch` over what is left, with its cases falling through. -/
def remaining (h : Nat) : Slice → Nat
  | [first] => finish h first
  | [first, second] => finish ((h + second.val <<< 8) % 2 ^ 32) first
  | [first, second, third] =>
      finish (((h + third.val <<< 16) % 2 ^ 32 + second.val <<< 8) % 2 ^ 32) first
  | _ => h

end Hash

def hash (data : Slice) (seed : Nat) : Nat :=
  let mixed := Hash.words ((seed ^^^ (data.length * Hash.m)) % 2 ^ 32) data
  Hash.remaining mixed.1 mixed.2

/-! ## Filter policies -/

/-- A filter is appended to what stands before it, so that the policy only says which bytes
are appended. -/
structure FilterPolicy where
  name : Slice
  createFilter : List Slice → Slice
  keyMayMatch : Slice → Slice → Bool

/-- A filter never denies a key that it was created from. -/
def FilterPolicy.Sound (policy : FilterPolicy) : Prop :=
  ∀ {keys key}, key ∈ keys → policy.keyMayMatch key (policy.createFilter keys) = true

/-- The number of probes is computed from `bits_per_key` in floating point and brought into
its bounds. -/
structure BloomFilterPolicy where
  bitsPerKey : Nat
  k : Nat
  positive : 1 ≤ k
  bounded : k ≤ 30
  deriving DecidableEq, Repr

namespace BloomFilterPolicy

def bloomHash (key : Slice) : Nat := hash key 0xbc9f1d34

def delta (h : Nat) : Nat := (h >>> 17) ||| (h <<< 15) % 2 ^ 32

def setBit (array : Slice) (bitpos : Nat) : Slice :=
  array.set (bitpos / 8) (Fin.ofNat 256 ((array.getD (bitpos / 8) 0).val ||| 1 <<< (bitpos % 8)))

def testBit (array : Slice) (bitpos : Nat) : Bool :=
  (array.getD (bitpos / 8) 0).val &&& 1 <<< (bitpos % 8) != 0

/-- The inner loop of `CreateFilter`. -/
def addProbes (bits delta : Nat) : Nat → Nat → Slice → Slice
  | 0, _, array => array
  | probes + 1, h, array =>
      addProbes bits delta probes ((h + delta) % 2 ^ 32) (setBit array (h % bits))

/-- The loop of `KeyMayMatch`. -/
def testProbes (bits delta : Nat) : Nat → Nat → Slice → Bool
  | 0, _, _ => true
  | probes + 1, h, array =>
      testBit array (h % bits) && testProbes bits delta probes ((h + delta) % 2 ^ 32) array

variable (policy : BloomFilterPolicy)

def addKey (bits : Nat) (array key : Slice) : Slice :=
  addProbes bits (delta (bloomHash key)) policy.k (bloomHash key) array

def createFilter (keys : List Slice) : Slice :=
  let bits := max (keys.length * policy.bitsPerKey) 64
  let bytes := (bits + 7) / 8
  keys.foldl (policy.addKey (bytes * 8)) (List.replicate bytes 0) ++ [Fin.ofNat 256 policy.k]

/-- A number of probes above 30 is reserved, and matches. -/
def keyMayMatch (key filter : Slice) : Bool :=
  if filter.length < 2 then false
  else
    let k := (filter.getD (filter.length - 1) 0).val
    if 30 < k then true
    else
      testProbes ((filter.length - 1) * 8) (delta (bloomHash key)) k (bloomHash key) filter

def filterPolicy : FilterPolicy where
  name := "leveldb.BuiltinBloomFilter2".toList.map fun char => Fin.ofNat 256 char.toNat
  createFilter := policy.createFilter
  keyMayMatch := keyMayMatch

/-! ## No key is denied -/

variable {array : Slice} {bits step place : Nat}

@[simp] theorem setBit_length (array : Slice) (bitpos : Nat) :
    (setBit array bitpos).length = array.length :=
  List.length_set

@[simp] theorem addProbes_length (bits step probes h : Nat) (array : Slice) :
    (addProbes bits step probes h array).length = array.length := by
  induction probes generalizing h array with
  | zero => rfl
  | succ probes ih => rw [addProbes, ih, setBit_length]

theorem testBit_eq (array : Slice) (bitpos : Nat) :
    testBit array bitpos = (array.getD (bitpos / 8) 0).val.testBit (bitpos % 8) := by
  rw [testBit, Nat.one_shiftLeft, Nat.and_two_pow]
  cases (array.getD (bitpos / 8) 0).val.testBit (bitpos % 8) with
  | false => rw [Bool.toNat_false, Nat.zero_mul]; rfl
  | true => simp

/-- The byte that a bit is set in. -/
theorem setBit_byte (inside : place / 8 < array.length) :
    ((setBit array place).getD (place / 8) 0).val =
      (array.getD (place / 8) 0).val ||| 2 ^ (place % 8) := by
  have small : (array.getD (place / 8) 0).val ||| 2 ^ (place % 8) < 2 ^ 8 := by
    apply Nat.or_lt_two_pow
    · exact (array.getD (place / 8) 0).isLt
    · exact Nat.pow_lt_pow_right (by decide) (Nat.mod_lt _ (by decide))
  rw [setBit, List.getD_eq_getElem?_getD, List.getElem?_set_self inside, Option.getD_some,
    Nat.one_shiftLeft]
  exact Nat.mod_eq_of_lt small

theorem testBit_setBit_self (inside : place / 8 < array.length) :
    testBit (setBit array place) place = true := by
  rw [testBit_eq, setBit_byte inside, Nat.testBit_or, Nat.testBit_two_pow_self, Bool.or_true]

/-- No bit is ever cleared. -/
theorem testBit_setBit (bitpos : Nat) (set : testBit array place = true) :
    testBit (setBit array bitpos) place = true := by
  by_cases inside : bitpos / 8 < array.length
  · by_cases same : bitpos / 8 = place / 8
    · rw [testBit_eq] at set ⊢
      rw [← same, setBit_byte inside, same, Nat.testBit_or, set, Bool.true_or]
    · rw [testBit] at set ⊢
      rwa [setBit, List.getD_eq_getElem?_getD, List.getElem?_set_ne same,
        ← List.getD_eq_getElem?_getD]
  · rwa [setBit, List.set_eq_of_length_le (Nat.not_lt.mp inside)]

theorem testBit_addProbes (probes h : Nat) (set : testBit array place = true) :
    testBit (addProbes bits step probes h array) place = true := by
  induction probes generalizing h array with
  | zero => exact set
  | succ probes ih => exact ih _ (testBit_setBit _ set)

/-- What sets more bits passes every test that was passed before. -/
theorem testProbes_mono {later : Slice} {probes h : Nat}
    (kept : ∀ place, testBit array place = true → testBit later place = true)
    (passed : testProbes bits step probes h array = true) :
    testProbes bits step probes h later = true := by
  induction probes generalizing h with
  | zero => rfl
  | succ probes ih =>
      rw [testProbes, Bool.and_eq_true] at passed ⊢
      exact ⟨kept _ passed.1, ih passed.2⟩

theorem testProbes_addProbes {probes h : Nat} (room : 0 < bits)
    (fits : array.length * 8 = bits) :
    testProbes bits step probes h (addProbes bits step probes h array) = true := by
  induction probes generalizing h array with
  | zero => rfl
  | succ probes ih =>
      have inside : h % bits / 8 < array.length := by
        have below := Nat.mod_lt h room
        omega
      rw [testProbes, addProbes, Bool.and_eq_true]
      refine ⟨testBit_addProbes probes _ (testBit_setBit_self inside), ?_⟩
      exact ih (by rw [setBit_length, fits])

theorem testBit_foldl (keys : List Slice) (set : testBit array place = true) :
    testBit (keys.foldl (policy.addKey bits) array) place = true := by
  induction keys generalizing array with
  | nil => exact set
  | cons key keys ih => exact ih (testBit_addProbes policy.k _ set)

theorem foldl_addKey_length (keys : List Slice) (array : Slice) :
    (keys.foldl (policy.addKey bits) array).length = array.length := by
  induction keys generalizing array with
  | nil => rfl
  | cons key keys ih => rw [List.foldl_cons, ih, addKey, addProbes_length]

theorem testProbes_foldl {keys : List Slice} {key : Slice} (room : 0 < bits)
    (fits : array.length * 8 = bits) (member : key ∈ keys) :
    testProbes bits (delta (bloomHash key)) policy.k (bloomHash key)
      (keys.foldl (policy.addKey bits) array) = true := by
  induction keys generalizing array with
  | nil => cases member
  | cons head keys ih =>
      rcases List.mem_cons.mp member with rfl | later
      · apply testProbes_mono (fun place => policy.testBit_foldl keys)
        exact testProbes_addProbes room fits
      · exact ih (by rw [addKey, addProbes_length, fits]) later

/-- The byte behind the array does not change its bits. -/
theorem testBit_append (last : Byte) (set : testBit array place = true) :
    testBit (array ++ [last]) place = true := by
  have inside : place / 8 < array.length := by
    by_contra outside
    rw [testBit, List.getD_eq_default _ _ (Nat.not_lt.mp outside)] at set
    simp at set
  rwa [testBit, List.getD_append _ _ _ _ inside, ← testBit]

theorem filterPolicy_sound : policy.filterPolicy.Sound := by
  intro keys key member
  obtain ⟨bytes, isBytes⟩ :
      ∃ bytes, bytes = (max (keys.length * policy.bitsPerKey) 64 + 7) / 8 := ⟨_, rfl⟩
  have enough : 8 ≤ bytes := by omega
  change keyMayMatch key (policy.createFilter keys) = true
  rw [createFilter, ← isBytes, keyMayMatch, List.length_append, List.length_singleton,
    foldl_addKey_length, List.length_replicate, Nat.add_sub_cancel, if_neg (by omega)]
  have last : ((keys.foldl (policy.addKey (bytes * 8)) (List.replicate bytes 0) ++
      [Fin.ofNat 256 policy.k]).getD bytes 0).val = policy.k := by
    have bound := policy.bounded
    rw [List.getD_append_right _ _ _ _ (by
      rw [foldl_addKey_length, List.length_replicate]), foldl_addKey_length,
      List.length_replicate, Nat.sub_self]
    exact Nat.mod_eq_of_lt (by omega)
  rw [last, if_neg (Nat.not_lt.mpr policy.bounded)]
  apply testProbes_mono (fun place => testBit_append _)
  exact policy.testProbes_foldl (by omega) (by rw [List.length_replicate]) member

end BloomFilterPolicy

end AhaTree
