import AhaTree.WritePath
import AhaTree.Lib.Codec

/-!
# Variable-length numbers

The model of `coding.cc`.  A number is written seven bits at a time, least
significant bits first; every byte but the last one has its highest bit set.  A
string is written behind its length.
-/

namespace AhaTree.Coding

open Lib (Decodes)

/-! ## Writing -/

/-- The loop of `EncodeVarint64`; the last byte takes what is left. -/
def encodeVarintLoop : Nat → Nat → Slice
  | 0, number => [Fin.ofNat 256 number]
  | rounds + 1, number =>
      if 128 ≤ number then
        Fin.ofNat 256 (number ||| 128) :: encodeVarintLoop rounds (number >>> 7)
      else [Fin.ofNat 256 number]

/-- A 64-bit number takes ten bytes at most. -/
def encodeVarint64 (number : Nat) : Slice := encodeVarintLoop 9 number

def encodeVarint32 (number : Nat) : Slice :=
  if number < 2 ^ 7 then [Fin.ofNat 256 number]
  else if number < 2 ^ 14 then
    [Fin.ofNat 256 (number ||| 128), Fin.ofNat 256 (number >>> 7)]
  else if number < 2 ^ 21 then
    [Fin.ofNat 256 (number ||| 128), Fin.ofNat 256 (number >>> 7 ||| 128),
      Fin.ofNat 256 (number >>> 14)]
  else if number < 2 ^ 28 then
    [Fin.ofNat 256 (number ||| 128), Fin.ofNat 256 (number >>> 7 ||| 128),
      Fin.ofNat 256 (number >>> 14 ||| 128), Fin.ofNat 256 (number >>> 21)]
  else
    [Fin.ofNat 256 (number ||| 128), Fin.ofNat 256 (number >>> 7 ||| 128),
      Fin.ofNat 256 (number >>> 14 ||| 128), Fin.ofNat 256 (number >>> 21 ||| 128),
      Fin.ofNat 256 (number >>> 28)]

/-- `PutLengthPrefixedSlice`. -/
def lengthPrefixed (value : Slice) : Slice := encodeVarint32 value.length ++ value

/-! ## Reading -/

/-- `DecodeFixed32`. -/
def decodeFixed32At (data : Slice) (offset : Nat) : Nat := decodeFixed ((data.drop offset).take 4)

/-- The loop of `GetVarint32PtrFallback` and of `GetVarint64Ptr`; the result has `width`
bits. -/
def getVarintLoop (width : Nat) : Nat → Nat → Nat → Slice → Option (Nat × Slice)
  | 0, _, _, _ => none
  | _ + 1, _, _, [] => none
  | rounds + 1, shift, result, byte :: rest =>
      if byte.val &&& 128 ≠ 0 then
        getVarintLoop width rounds (shift + 7)
          (result ||| ((byte.val &&& 127) <<< shift) % 2 ^ width) rest
      else some (result ||| (byte.val <<< shift) % 2 ^ width, rest)

def getVarint32PtrFallback (input : Slice) : Option (Nat × Slice) :=
  getVarintLoop 32 5 0 0 input

/-- A number of one byte is read at once. -/
def getVarint32 : Slice → Option (Nat × Slice)
  | [] => getVarint32PtrFallback []
  | byte :: rest =>
      if byte.val &&& 128 = 0 then some (byte.val, rest)
      else getVarint32PtrFallback (byte :: rest)

def getVarint64 (input : Slice) : Option (Nat × Slice) := getVarintLoop 64 10 0 0 input

def getLengthPrefixedSlice (input : Slice) : Option (Slice × Slice) :=
  (getVarint32 input).bind fun (length, rest) =>
    if length ≤ rest.length then some (rest.take length, rest.drop length) else none

/-! ## The bytes -/

theorem continues_iff (byte : Byte) : byte.val &&& 128 ≠ 0 ↔ 128 ≤ byte.val := by
  revert byte
  decide +kernel

theorem lowBits_eq (number : Nat) : number &&& 127 = number % 128 :=
  Nat.and_two_pow_sub_one_eq_mod number 7

theorem marked_val (number : Nat) :
    (Fin.ofNat 256 (number ||| 128)).val = number % 128 + 128 := by
  have onByte : ∀ byte : Byte, byte.val ||| 128 = byte.val % 128 + 128 := by decide +kernel
  have byte := onByte (Fin.ofNat 256 number)
  rw [Fin.val_ofNat] at byte ⊢
  have split : (number ||| 128) % 256 = number % 256 ||| 128 :=
    Nat.or_mod_two_pow (n := 8)
  rw [split, byte]
  omega

theorem joined (number shift : Nat) {result : Nat} (small : result < 2 ^ shift) :
    result ||| number <<< shift = result + number * 2 ^ shift := by
  rw [Nat.or_comm, ← Nat.shiftLeft_add_eq_or_of_lt small, Nat.shiftLeft_eq, Nat.add_comm]

/-! ## Reading back -/

/-- The last byte ends the loop. -/
theorem getVarintLoop_last (width rounds : Nat) {shift result number : Nat} (rest : Slice)
    (small : result < 2 ^ shift) (fits : number * 2 ^ shift < 2 ^ width)
    (less : number < 128) :
    getVarintLoop width (rounds + 1) shift result (Fin.ofNat 256 number :: rest) =
      some (result + number * 2 ^ shift, rest) := by
  have value : (Fin.ofNat 256 number).val = number :=
    Nat.mod_eq_of_lt (show number < 256 by omega)
  have ends : ¬ ((Fin.ofNat 256 number).val &&& 128 ≠ 0) := by
    rw [continues_iff, value]
    omega
  rw [getVarintLoop, if_neg ends, value, Nat.mod_eq_of_lt (by rwa [Nat.shiftLeft_eq]),
    joined number shift small]

/-- Any other byte adds seven bits. -/
theorem getVarintLoop_marked (width rounds : Nat) {shift result number : Nat} (rest : Slice)
    (small : result < 2 ^ shift) (fits : number * 2 ^ shift < 2 ^ width) :
    getVarintLoop width (rounds + 1) shift result (Fin.ofNat 256 (number ||| 128) :: rest) =
      getVarintLoop width rounds (shift + 7) (result + number % 128 * 2 ^ shift) rest := by
  have value := marked_val number
  have goesOn : (Fin.ofNat 256 (number ||| 128)).val &&& 128 ≠ 0 := by
    rw [continues_iff, value]
    omega
  have low : (number % 128 + 128) % 128 = number % 128 := by omega
  have part : number % 128 * 2 ^ shift ≤ number * 2 ^ shift :=
    Nat.mul_le_mul_right _ (Nat.mod_le number 128)
  rw [getVarintLoop, if_pos goesOn, value, lowBits_eq, low,
    Nat.mod_eq_of_lt (by rw [Nat.shiftLeft_eq]; omega), joined (number % 128) shift small]

theorem getVarintLoop_encode (width rounds : Nat) {shift result number : Nat} (rest : Slice)
    (small : result < 2 ^ shift) (fits : number * 2 ^ shift < 2 ^ width)
    (enough : number < 128 ^ (rounds + 1)) :
    getVarintLoop width (rounds + 1) shift result (encodeVarintLoop rounds number ++ rest) =
      some (result + number * 2 ^ shift, rest) := by
  induction rounds generalizing shift result number with
  | zero => exact getVarintLoop_last width 0 rest small fits (by simpa using enough)
  | succ rounds ih =>
      rw [encodeVarintLoop]
      by_cases large : 128 ≤ number
      · have power : 2 ^ (shift + 7) = 2 ^ shift * 128 := pow_add 2 shift 7
        have whole : number % 128 * 2 ^ shift + number / 128 * 2 ^ (shift + 7) =
            number * 2 ^ shift := by
          calc
            number % 128 * 2 ^ shift + number / 128 * 2 ^ (shift + 7)
                = number % 128 * 2 ^ shift + 128 * (number / 128) * 2 ^ shift := by
                  rw [power, Nat.mul_comm (2 ^ shift), ← Nat.mul_assoc,
                    Nat.mul_comm (number / 128)]
            _ = (number % 128 + 128 * (number / 128)) * 2 ^ shift := (Nat.add_mul _ _ _).symm
            _ = number * 2 ^ shift := by rw [Nat.mod_add_div]
        have soFar : result + number % 128 * 2 ^ shift < 2 ^ (shift + 7) := by
          calc
            result + number % 128 * 2 ^ shift
                < 2 ^ shift + number % 128 * 2 ^ shift := Nat.add_lt_add_right small _
            _ = (number % 128 + 1) * 2 ^ shift := by rw [Nat.add_one_mul, Nat.add_comm]
            _ ≤ 128 * 2 ^ shift := Nat.mul_le_mul_right _ (Nat.mod_lt _ (by decide))
            _ = 2 ^ (shift + 7) := by rw [power, Nat.mul_comm]
        have halved : number >>> 7 = number / 128 := Nat.shiftRight_eq_div_pow number 7
        rw [if_pos large, List.cons_append, getVarintLoop_marked width _ _ small fits, halved,
          ih soFar (by omega) (Nat.div_lt_of_lt_mul (by rw [pow_succ] at enough; omega)),
          Nat.add_assoc, whole]
      · rw [if_neg large]
        exact getVarintLoop_last width (rounds + 1) rest small fits (by omega)

theorem encodeVarint32_eq {number : Nat} (fits : number < 2 ^ 32) :
    encodeVarint32 number = encodeVarintLoop 4 number := by
  simp only [encodeVarint32, encodeVarintLoop, ← Nat.shiftRight_add, Nat.reduceAdd]
  simp only [Nat.shiftRight_eq_div_pow]
  -- the branches of the two sides that do not agree exclude each other
  split_ifs <;> first | rfl | omega

theorem getVarint64_decodes : Decodes getVarint64 encodeVarint64 (· < 2 ^ 64) := by
  intro number fits rest
  have read := @getVarintLoop_encode 64 9 0 0 number rest (by decide) (by simpa using fits)
    (by omega)
  simpa [getVarint64, encodeVarint64] using read

theorem getVarint32PtrFallback_decodes :
    Decodes getVarint32PtrFallback encodeVarint32 (· < 2 ^ 32) := by
  intro number fits rest
  have read := @getVarintLoop_encode 32 4 0 0 number rest (by decide) (by simpa using fits)
    (by omega)
  rw [encodeVarint32_eq fits]
  simpa [getVarint32PtrFallback] using read

/-- The short cut for one byte does not change the result. -/
theorem getVarint32_eq (input : Slice) : getVarint32 input = getVarint32PtrFallback input := by
  cases input with
  | nil => rfl
  | cons byte rest =>
      rw [getVarint32]
      by_cases single : byte.val &&& 128 = 0
      · have less : byte.val < 128 := by
          have notMarked := (continues_iff byte).not
          omega
        have sameByte : Fin.ofNat 256 byte.val = byte := Fin.ofNat_val_eq_self byte
        have read := @getVarintLoop_last 32 4 0 0 byte.val rest (by decide) (by omega) less
        rw [if_pos single, getVarint32PtrFallback, ← sameByte, read, sameByte]
        simp
      · rw [if_neg single]

theorem getVarint32_decodes : Decodes getVarint32 encodeVarint32 (· < 2 ^ 32) := by
  intro number fits rest
  rw [getVarint32_eq, getVarint32PtrFallback_decodes number fits rest]

theorem getLengthPrefixedSlice_decodes :
    Decodes getLengthPrefixedSlice lengthPrefixed (fun value => value.length < 2 ^ 32) := by
  intro value fits rest
  rw [lengthPrefixed, List.append_assoc, getLengthPrefixedSlice,
    getVarint32_decodes value.length fits, Option.bind_some]
  simp

/-! ## Fixed-width numbers -/

theorem decodeFixed32At_append {before bytes : Slice} {offset : Nat}
    (there : offset = before.length) :
    decodeFixed32At (before ++ bytes) offset = decodeFixed (bytes.take 4) := by
  rw [decodeFixed32At, there, List.drop_left]

theorem decodeFixed_take_encodeFixed {number : Nat} (fits : number < 2 ^ 32) (rest : Slice) :
    decodeFixed ((encodeFixed 4 number ++ rest).take 4) = number := by
  have taken : (encodeFixed 4 number ++ rest).take 4 = encodeFixed 4 number :=
    List.take_left' (encodeFixed_length 4 number)
  rw [taken, decodeFixed_encodeFixed]
  exact Nat.mod_eq_of_lt (by omega)

theorem flatMap_encodeFixed_length (numbers : List Nat) :
    (numbers.flatMap (encodeFixed 4)).length = numbers.length * 4 := by
  simp [List.length_flatMap]

theorem decodeFixed32At_flatMap {numbers : List Nat} {index number : Nat}
    (found : numbers[index]? = some number) (fits : number < 2 ^ 32) (before rest : Slice) :
    decodeFixed32At (before ++ (numbers.flatMap (encodeFixed 4) ++ rest))
      (before.length + index * 4) = number := by
  have inside := (List.getElem?_eq_some_iff.mp found).1
  have split : numbers.flatMap (encodeFixed 4) = (numbers.take index).flatMap (encodeFixed 4) ++
      (encodeFixed 4 number ++ (numbers.drop (index + 1)).flatMap (encodeFixed 4)) := by
    have cons : numbers.drop index = number :: numbers.drop (index + 1) := by
      rw [List.drop_eq_getElem_cons inside, (List.getElem?_eq_some_iff.mp found).2]
    rw [← List.flatMap_cons, ← cons, ← List.flatMap_append, List.take_append_drop]
  rw [split, List.append_assoc, ← List.append_assoc, List.append_assoc (encodeFixed 4 number),
    decodeFixed32At_append, decodeFixed_take_encodeFixed fits]
  rw [List.length_append, flatMap_encodeFixed_length, List.length_take_of_le inside.le]

end AhaTree.Coding
