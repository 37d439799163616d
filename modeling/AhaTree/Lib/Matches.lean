/-!
# Computations that may abort

A computation on concrete data beside one on abstract data.  Where the abstract one
has a value, the concrete one has a value that holds it; where the abstract one
fails, some failures mean that the concrete one aborts, and the others say nothing
about it.
-/

namespace Lib

variable {concrete abstract item failure : Type}

def Matches (holds : concrete → abstract → Prop) (aborts : failure → Prop)
    (computed : Option concrete) : Except failure abstract → Prop
  | .ok value => ∃ result, computed = some result ∧ holds result value
  | .error reason => aborts reason → computed = none

namespace Matches

variable {holds : concrete → abstract → Prop} {aborts : failure → Prop}
  {computed : Option concrete} {expected : Except failure abstract}

theorem ok {result : concrete} {value : abstract} (held : holds result value) :
    Matches holds aborts (some result) (.ok value) :=
  ⟨result, rfl, held⟩

/-- A failure that says nothing. -/
theorem unspecified {reason : failure} (silent : ¬ aborts reason) :
    Matches holds aborts computed (.error reason) :=
  fun isAbort => absurd isAbort silent

/-- What follows is compared for results that hold the values they follow. -/
theorem bind {concrete' abstract' : Type} {holds' : concrete' → abstract' → Prop}
    {next : concrete → Option concrete'} {following : abstract → Except failure abstract'}
    (first : Matches holds aborts computed expected)
    (rest : ∀ result value, computed = some result → expected = .ok value →
      holds result value → Matches holds' aborts (next result) (following value)) :
    Matches holds' aborts (computed.bind next) (expected >>= following) := by
  cases expected with
  | error reason =>
      intro isAbort
      rw [first isAbort]
      rfl
  | ok value =>
      obtain ⟨result, isResult, held⟩ := first
      rw [isResult]
      exact rest result value isResult rfl held

/-- A last step that only the abstract side takes. -/
theorem returns {abstract' : Type} {holds' : concrete → abstract' → Prop}
    {answer : abstract → abstract'} (first : Matches holds aborts computed expected)
    (rest : ∀ result value, holds result value → holds' result (answer value)) :
    Matches holds' aborts computed (expected >>= fun value => pure (answer value)) := by
  cases expected with
  | error reason => exact first
  | ok value =>
      obtain ⟨result, isResult, held⟩ := first
      exact ⟨result, isResult, rest result value held⟩

/-- A loop is compared by its rounds. -/
theorem foldlM {step : concrete → item → Option concrete}
    {round : abstract → item → Except failure abstract}
    (each : ∀ (result : concrete) (value : abstract) (next : item), holds result value →
      Matches holds aborts (step result next) (round value next)) (items : List item)
    {result : concrete} {value : abstract} (held : holds result value) :
    Matches holds aborts (items.foldlM step result) (items.foldlM round value) := by
  induction items generalizing result value with
  | nil => exact ok held
  | cons next items ih =>
      rw [List.foldlM_cons, List.foldlM_cons]
      exact (each result value next held).bind fun _ _ _ _ => ih

end Matches

end Lib
