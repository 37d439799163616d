/-!
# Runs of a step function

A system is a step function that answers `none` where a step is not enabled.
`Reaches` collects the states of all runs whose steps are allowed, and an
invariant of the allowed steps holds in all of them.
-/

namespace Lib

variable {state act : Type}

/-- The states that runs from `start` reach when every step is allowed in the
state it is taken in. -/
inductive Reaches (step : state → act → Option state)
    (allowed : state → act → Prop) (start : state) : state → Prop
  | start : Reaches step allowed start start
  | next {before after : state} (taken : act) :
      Reaches step allowed start before → allowed before taken →
      step before taken = some after → Reaches step allowed start after

/-- Take the steps in turn, each only if the check lets it pass. -/
def run (step : state → act → Option state) (check : state → act → Bool) :
    state → List act → Option state
  | before, [] => some before
  | before, taken :: rest =>
      if check before taken then
        (step before taken).bind (fun after => run step check after rest)
      else none

namespace Reaches

variable {step : state → act → Option state} {allowed : state → act → Prop}
  {start reached : state}

/-- What holds at the start and is kept by allowed steps holds in every reached
state. -/
theorem invariant (reaches : Reaches step allowed start reached)
    (kept : state → Prop) (atStart : kept start)
    (preserved : ∀ before taken after, kept before → allowed before taken →
      step before taken = some after → kept after) : kept reached := by
  induction reaches with
  | start => exact atStart
  | next taken _ isAllowed stepped ih =>
      exact preserved _ taken _ ih isAllowed stepped

theorem trans {middle : state} (earlier : Reaches step allowed start middle)
    (later : Reaches step allowed middle reached) : Reaches step allowed start reached :=
  later.invariant (Reaches step allowed start) earlier
    fun _ taken _ sofar isAllowed stepped => .next taken sofar isAllowed stepped

theorem run_from {check : state → act → Bool}
    (reaches : Reaches step allowed start reached)
    (sound : ∀ before taken, check before taken = true → allowed before taken)
    {acts : List act} {after : state}
    (ran : run step check reached acts = some after) :
    Reaches step allowed start after := by
  induction acts generalizing reached with
  | nil =>
      cases ran
      exact reaches
  | cons taken rest ih =>
      rw [run] at ran
      split at ran
      · rename_i passed
        obtain ⟨middle, stepped, later⟩ := Option.bind_eq_some_iff.mp ran
        exact ih (.next taken reaches (sound _ taken passed) stepped) later
      · cases ran

end Reaches

/-- The runs whose steps all pass a sound check are allowed ones. -/
theorem reaches_of_run {step : state → act → Option state}
    {allowed : state → act → Prop} {check : state → act → Bool}
    (sound : ∀ before taken, check before taken = true → allowed before taken)
    {start after : state} {acts : List act}
    (ran : run step check start acts = some after) :
    Reaches step allowed start after :=
  Reaches.start.run_from sound ran

end Lib
