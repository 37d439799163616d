import Mathlib.Data.List.Basic

/-!
# Prefix codes

A decoder reads one value off the front of a list and hands back the rest.  It
`Decodes` an encoder when it reads back every valid value, whatever follows.
-/

namespace Lib

variable {cell α β : Type}

abbrev Decoder (cell α : Type) := List cell → Option (α × List cell)

def Decodes (decode : Decoder cell α) (encode : α → List cell) (valid : α → Prop) : Prop :=
  ∀ value, valid value → ∀ rest, decode (encode value ++ rest) = some (value, rest)

/-- One decoder behind another one. -/
def Decoder.pair (first : Decoder cell α) (second : Decoder cell β) : Decoder cell (α × β) :=
  fun input =>
    (first input).bind fun read =>
      (second read.2).map fun later => ((read.1, later.1), later.2)

theorem Decodes.pair {first : Decoder cell α} {second : Decoder cell β}
    {encodeFirst : α → List cell} {encodeSecond : β → List cell}
    {validFirst : α → Prop} {validSecond : β → Prop}
    (decodesFirst : Decodes first encodeFirst validFirst)
    (decodesSecond : Decodes second encodeSecond validSecond) :
    Decodes (first.pair second) (fun value => encodeFirst value.1 ++ encodeSecond value.2)
      (fun value => validFirst value.1 ∧ validSecond value.2) := by
  intro value valid rest
  rw [Decoder.pair, List.append_assoc, decodesFirst value.1 valid.1, Option.bind_some,
    decodesSecond value.2 valid.2]
  rfl

end Lib
