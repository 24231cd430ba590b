import DarkStd.Semantics.System

/-!
# What can be seen of a run

Of the steps of a system some are seen from outside, as events, and the others
are not. A system refines another if what is seen of its runs are runs of the
other; it realises the other if all of them, up to some length, can be seen.
-/

namespace DarkStd.Semantics.System

universe u v u' v'

variable {State : Type u} {Action : Type v} {Other : Type u'} {Event : Type v'}

/-- A run, by the events that are seen of it, oldest first. -/
inductive Traces (sys : System State Action) (observe : State → Action → Option Event) :
    State → List Event → State → Prop where
  | refl {state} : Traces sys observe state [] state
  | step {state events middle action next}
      (prior : Traces sys observe state events middle)
      (move : sys.Step middle action next) :
      Traces sys observe state (events ++ (observe middle action).toList) next

/-- An event is a step; where none is seen nothing happens. -/
def Stutters (sys : System Other Event) (state : Other) : Option Event → Other → Prop
  | none, next => next = state
  | some event, next => sys.Step state event next

variable {lower : System State Action} {upper : System Other Event}
variable {observe : State → Action → Option Event} {holds : State → Prop} {view : State → Other}

/-- Runs that meet at the same state are seen one after the other. -/
theorem Traces.trans {first middle last : State} {before after : List Event}
    (prior : lower.Traces observe first before middle)
    (rest : lower.Traces observe middle after last) :
    lower.Traces observe first (before ++ after) last := by
  induction rest with
  | refl => simpa using prior
  | step _ move inductionHypothesis =>
      rw [← List.append_assoc]
      exact .step inductionHypothesis move

/-- A step of which nothing is seen. -/
theorem Traces.silent {state next : State} {action : Action} (move : lower.Step state action next)
    (unseen : observe state action = none) : lower.Traces observe state [] next := by
  have step : lower.Traces observe state ([] ++ (observe state action).toList) next :=
    .step .refl move
  rwa [unseen] at step

/-- A step that is seen. -/
theorem Traces.seen {state next : State} {action : Action} {event : Event}
    (move : lower.Step state action next) (seen : observe state action = some event) :
    lower.Traces observe state [event] next := by
  have step : lower.Traces observe state ([] ++ (observe state action).toList) next :=
    .step .refl move
  rwa [seen] at step

theorem Traces.reachable {state next : State} {events : List Event}
    (traces : lower.Traces observe state events next) (reachable : lower.Reachable state) :
    lower.Reachable next := by
  induction traces with
  | refl => exact reachable
  | step _ move inductionHypothesis => exact inductionHypothesis.step move

/-- What is seen of a step is a step of the other system, under the view. -/
structure Refines (lower : System State Action) (upper : System Other Event)
    (observe : State → Action → Option Event) (holds : State → Prop) (view : State → Other) :
    Prop where
  forward : ∀ state action next, holds state → lower.Step state action next →
    holds next ∧ upper.Stutters (view state) (observe state action) (view next)

/-- So what is seen of a run is a run of the other system. -/
theorem Refines.steps (refines : Refines lower upper observe holds view) {state next : State}
    {events : List Event} (traces : lower.Traces observe state events next)
    (held : holds state) : holds next ∧ upper.Steps (view state) events (view next) := by
  induction traces with
  | refl => exact ⟨held, .refl⟩
  | @step events middle action next _ move inductionHypothesis =>
      obtain ⟨held, steps⟩ := inductionHypothesis
      obtain ⟨held, moved⟩ := refines.forward _ _ _ held move
      refine ⟨held, ?_⟩
      cases seen : observe middle action with
      | none =>
          have same : view next = view middle := by rwa [seen] at moved
          rw [same]
          simpa using steps
      | some event =>
          have moved : upper.Step (view middle) event (view next) := by rwa [seen] at moved
          exact steps.step moved

/-- From where the system rests, each of the first `limit` steps of the other
system can be brought about, and it rests again. -/
structure Realizes (lower : System State Action) (upper : System Other Event)
    (observe : State → Action → Option Event) (rests : Nat → State → Prop)
    (view : State → Other) (limit : Nat) : Prop where
  backward : ∀ taken state event viewed, taken < limit → rests taken state →
    upper.Step (view state) event viewed →
    ∃ next, lower.Traces observe state [event] next ∧ rests (taken + 1) next ∧ view next = viewed

/-- So every run of the other system can be seen, up to the limit. -/
theorem Realizes.exists_traces {rests : Nat → State → Prop} {limit : Nat}
    (realizes : Realizes lower upper observe rests view limit) {state : State}
    {start viewed : Other} {events : List Event} (rested : rests 0 state)
    (starts : view state = start) (steps : upper.Steps start events viewed)
    (short : events.length ≤ limit) :
    ∃ next, lower.Traces observe state events next ∧ rests events.length next ∧
      view next = viewed := by
  induction steps with
  | refl => exact ⟨state, .refl, rested, starts⟩
  | @step events middle event last _ move inductionHypothesis =>
      rw [List.length_append, List.length_singleton] at short
      obtain ⟨between, traces, rested, rfl⟩ := inductionHypothesis (by omega)
      obtain ⟨next, seen, rested, viewed⟩ :=
        realizes.backward _ _ _ _ short rested move
      rw [List.length_append]
      exact ⟨next, traces.trans seen, rested, viewed⟩

end DarkStd.Semantics.System
