/-!
# Simulations

A step of a system is seen from outside as an event, or not at all.  When every
visible step of one system is a step of a simpler one, and the other steps do
not change what the simpler one sees, then the events of every run of the first
are events of a run of the second.
-/

namespace Lib

variable {state act event spec : Type}

/-- Take the steps in turn, and collect their events. -/
def trace (step : state → act → Option (state × Option event)) :
    state → List act → Option (state × List event)
  | before, [] => some (before, [])
  | before, taken :: rest =>
      (step before taken).bind fun (middle, event) =>
        (trace step middle rest).map fun (after, events) => (after, event.toList ++ events)

/-- The events lead from one state of the simpler system to another. -/
def Accepts (takes : spec → event → spec → Prop) : spec → List event → spec → Prop
  | before, [], after => after = before
  | before, event :: events, after =>
      ∃ middle, takes before event middle ∧ Accepts takes middle events after

structure Refines (step : state → act → Option (state × Option event))
    (takes : spec → event → spec → Prop) (related : state → spec → Prop) : Prop where
  silent : ∀ {low high taken after}, related low high → step low taken = some (after, none) →
    related after high
  visible : ∀ {low high taken after event}, related low high →
    step low taken = some (after, some event) →
      ∃ later, takes high event later ∧ related after later

/-- The events of a run are events of the simpler system. -/
theorem Refines.trace {step : state → act → Option (state × Option event)}
    {takes : spec → event → spec → Prop} {related : state → spec → Prop}
    (refines : Refines step takes related) {low after : state} {high : spec}
    {acts : List act} {events : List event} (standing : related low high)
    (ran : trace step low acts = some (after, events)) :
    ∃ later, Accepts takes high events later ∧ related after later := by
  induction acts generalizing low high events with
  | nil =>
      cases ran
      exact ⟨high, rfl, standing⟩
  | cons taken rest ih =>
      obtain ⟨⟨middle, first⟩, stepped, ran⟩ := Option.bind_eq_some_iff.mp ran
      obtain ⟨⟨last, more⟩, ranOn, same⟩ := Option.map_eq_some_iff.mp ran
      cases same
      cases first with
      | none => exact ih (refines.silent standing stepped) ranOn
      | some event =>
          obtain ⟨between, taken, standing⟩ := refines.visible standing stepped
          obtain ⟨later, accepted, standing⟩ := ih standing ranOn
          exact ⟨later, ⟨between, taken, accepted⟩, standing⟩

end Lib
