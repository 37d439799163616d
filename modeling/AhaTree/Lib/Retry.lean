import Mathlib.Logic.Relation

/-!
# Loops that retry

A round of a loop leaves it, does some work and asks for another round, or finds
nothing to do.  The request is a flag that is raised and never lowered, so that
a round with nothing to do leaves the loop only if no round before has raised
the flag.
-/

namespace Lib

variable {state result : Type}

/-- What a round comes to. -/
inductive Turn (state result : Type) where
  | leave (done : result)
  | again (next : state)
  | settle (next : state) (done : result)

/-- The loop; fuel bounds the rounds. -/
def retry (body : state → Turn state result) : Nat → Bool → state → Option result
  | 0, _, _ => none
  | fuel + 1, raised, here =>
      match body here with
      | .leave done => some done
      | .again next => retry body fuel true next
      | .settle next done => if raised then retry body fuel true next else some done

/-- The loop ends with a result that is good. -/
def EndsWell (body : state → Turn state result) (good : result → Prop) (raised : Bool)
    (here : state) : Prop :=
  ∃ fuel done, retry body fuel raised here = some done ∧ good done

/-- Steps that keep an invariant are steps of another relation wherever it holds. -/
theorem transGen_of_kept {step other : state → state → Prop} {kept : state → Prop}
    (passes : ∀ here next, kept here → step here next → other here next ∧ kept next)
    {here there : state} (isKept : kept here) (reached : Relation.TransGen step here there) :
    Relation.TransGen other here there := by
  suffices both : kept there ∧ Relation.TransGen other here there from both.2
  induction reached with
  | single isStep =>
      obtain ⟨isOther, nextKept⟩ := passes _ _ isKept isStep
      exact ⟨nextKept, .single isOther⟩
  | tail _ isStep ih =>
      obtain ⟨isOther, nextKept⟩ := passes _ _ ih.1 isStep
      exact ⟨nextKept, ih.2.tail isOther⟩

def Again (body : state → Turn state result) (here next : state) : Prop :=
  body here = .again next

def Settles (body : state → Turn state result) (here : state) : Prop :=
  ∃ next done, body here = .settle next done

/-- The rounds keep an invariant; a state with nothing to do stays one, work makes the
state smaller, and a round that leaves the loop has a good result. -/
structure Retries (body : state → Turn state result) (good : result → Prop)
    (kept : state → Prop) (size : state → Nat) : Prop where
  settled : ∀ here next done, kept here → body here = .settle next done →
    kept next ∧ Settles body next
  worked : ∀ here next, kept here → body here = .again next → kept next ∧ size next < size here
  left : ∀ here done, kept here → body here = .leave done → good done

namespace Retries

variable {body : state → Turn state result} {good : result → Prop} {kept : state → Prop}
  {size : state → Nat} (retries : Retries body good kept size)

include retries

/-- With the flag raised a state with nothing to do is never left. -/
theorem retry_of_settles {here : state} (isKept : kept here) (settles : Settles body here)
    (fuel : Nat) : retry body fuel true here = none := by
  induction fuel generalizing here with
  | zero => rfl
  | succ fuel ih =>
      obtain ⟨next, done, isSettle⟩ := settles
      obtain ⟨nextKept, nextSettles⟩ := retries.settled here next done isKept isSettle
      rw [retry, isSettle]
      exact ih nextKept nextSettles

omit retries in
theorem endsWell_again {here next : state} (isAgain : body here = .again next)
    (raised : Bool) : EndsWell body good raised here ↔ EndsWell body good true next := by
  constructor
  · rintro ⟨fuel, done, ended, isGood⟩
    cases fuel with
    | zero => cases ended
    | succ fuel =>
        rw [retry, isAgain] at ended
        exact ⟨fuel, done, ended, isGood⟩
  · rintro ⟨fuel, done, ended, isGood⟩
    refine ⟨fuel + 1, done, ?_, isGood⟩
    rw [retry, isAgain]
    exact ended

theorem endsWell_leave {here : state} {done : result} (isKept : kept here)
    (isLeave : body here = .leave done) (raised : Bool) : EndsWell body good raised here :=
  ⟨1, done, by rw [retry, isLeave], retries.left here done isKept isLeave⟩

/-- With the flag raised the loop ends if no round to come has nothing to do. -/
theorem endsWell_raised_iff {here : state} (isKept : kept here) :
    EndsWell body good true here ↔
      ∀ later, Relation.ReflTransGen (Again body) here later → ¬ Settles body later := by
  induction isSize : size here using Nat.strongRecOn generalizing here with
  | ind number ih =>
      cases isBody : body here with
      | leave done =>
          refine iff_of_true (retries.endsWell_leave isKept isBody true) ?_
          rintro later reached ⟨next, other, settles⟩
          rcases Relation.ReflTransGen.cases_head reached with rfl | ⟨next, isAgain, -⟩
          · rw [isBody] at settles
            cases settles
          · rw [Again, isBody] at isAgain
            cases isAgain
      | again next =>
          obtain ⟨nextKept, smaller⟩ := retries.worked here next isKept isBody
          rw [endsWell_again isBody, ih (size next) (isSize ▸ smaller) nextKept rfl]
          constructor
          · intro never later reached
            rcases Relation.ReflTransGen.cases_head reached with rfl | ⟨other, isAgain, further⟩
            · rintro ⟨_, _, settles⟩
              rw [isBody] at settles
              cases settles
            · rw [Again, isBody] at isAgain
              cases isAgain
              exact never later further
          · exact fun never later reached => never later (.head isBody reached)
      | settle next done =>
          have settles : Settles body here := ⟨next, done, isBody⟩
          refine iff_of_false ?_ fun never => never here .refl settles
          rintro ⟨fuel, other, ended, -⟩
          rw [retries.retry_of_settles isKept settles fuel] at ended
          cases ended

/-- The loop ends well if a first round with nothing to do has a good result, and no round
after one that has worked has nothing to do. -/
theorem endsWell_iff {here : state} (isKept : kept here) :
    EndsWell body good false here ↔
      (∀ next done, body here = .settle next done → good done) ∧
        ∀ later, Relation.TransGen (Again body) here later → ¬ Settles body later := by
  cases isBody : body here with
  | leave done =>
      refine iff_of_true (retries.endsWell_leave isKept isBody false) ⟨by simp, ?_⟩
      intro later reached
      obtain ⟨next, isAgain, -⟩ := Relation.TransGen.head'_iff.mp reached
      rw [Again, isBody] at isAgain
      cases isAgain
  | again next =>
      have nextKept := (retries.worked here next isKept isBody).1
      rw [endsWell_again isBody, retries.endsWell_raised_iff nextKept]
      constructor
      · refine fun never => ⟨by simp, fun later reached => ?_⟩
        obtain ⟨other, isAgain, further⟩ := Relation.TransGen.head'_iff.mp reached
        rw [Again, isBody] at isAgain
        cases isAgain
        exact never later further
      · exact fun never later reached =>
          never.2 later (Relation.TransGen.head'_iff.mpr ⟨next, isBody, reached⟩)
  | settle next done =>
      constructor
      · rintro ⟨fuel, other, ended, isGood⟩
        cases fuel with
        | zero => cases ended
        | succ fuel =>
            rw [retry, isBody] at ended
            cases ended
            refine ⟨fun _ _ same => by cases same; exact isGood, fun later reached => ?_⟩
            obtain ⟨other, isAgain, -⟩ := Relation.TransGen.head'_iff.mp reached
            rw [Again, isBody] at isAgain
            cases isAgain
      · rintro ⟨isGood, -⟩
        exact ⟨1, done, by rw [retry, isBody]; rfl, isGood next done rfl⟩

end Retries

end Lib
