import DarkStd.Semantics.System

/-!
# Two systems that do the same

A system refines another along a view of its states if each of its steps is,
under the view, a step of the other; it is bisimilar if the other can do nothing
from a viewed state that it could not do itself. Invariants of the other system
then hold of the view, and what the other system can bring about can be brought
about.
-/

namespace DarkStd.Semantics.System

universe u v u' v'

variable {State : Type u} {Action : Type v} {Other : Type u'} {OtherAction : Type v'}

/-- The states of one system that meet `holds`, seen through `view`, take the
steps of another. -/
structure Bisimulates (lower : System State Action) (upper : System Other OtherAction)
    (holds : State → Prop) (view : State → Other) (label : Action → OtherAction) : Prop where
  initial : ∀ state, lower.Initial state → holds state ∧ upper.Initial (view state)
  forward : ∀ state action next, holds state → lower.Step state action next →
    holds next ∧ upper.Step (view state) (label action) (view next)
  backward : ∀ state action viewed, holds state → upper.Step (view state) action viewed →
    ∃ taken next, lower.Step state taken next ∧ label taken = action ∧ view next = viewed

namespace Bisimulates

variable {lower : System State Action} {upper : System Other OtherAction}
variable {holds : State → Prop} {view : State → Other} {label : Action → OtherAction}
variable (same : Bisimulates lower upper holds view label)
include same

/-- What is reached is reached by the other system under the view. -/
theorem reachable {state : State} (reached : lower.Reachable state) :
    holds state ∧ upper.Reachable (view state) := by
  induction reached with
  | initial start =>
      obtain ⟨held, start⟩ := same.initial _ start
      exact ⟨held, .initial start⟩
  | step _ move inductionHypothesis =>
      obtain ⟨held, viewed⟩ := inductionHypothesis
      obtain ⟨held, move⟩ := same.forward _ _ _ held move
      exact ⟨held, viewed.step move⟩

/-- Every run is a run of the other system under the view. -/
theorem steps {state next : State} {actions : List Action} (held : holds state)
    (steps : lower.Steps state actions next) :
    holds next ∧ upper.Steps (view state) (actions.map label) (view next) := by
  induction steps with
  | refl => exact ⟨held, .refl⟩
  | step _ move inductionHypothesis =>
      obtain ⟨held, steps⟩ := inductionHypothesis
      obtain ⟨held, move⟩ := same.forward _ _ _ held move
      rw [List.map_append]
      exact ⟨held, steps.step move⟩

/-- Every run of the other system from a viewed state is the view of a run. -/
theorem exists_steps {state : State} {start viewed : Other} {actions : List OtherAction}
    (held : holds state) (starts : view state = start)
    (steps : upper.Steps start actions viewed) :
    ∃ taken next, lower.Steps state taken next ∧ taken.map label = actions ∧ holds next ∧
      view next = viewed := by
  induction steps with
  | refl => exact ⟨[], state, .refl, rfl, held, starts⟩
  | step _ move inductionHypothesis =>
      obtain ⟨taken, middle, steps, rfl, held, rfl⟩ := inductionHypothesis
      obtain ⟨action, next, below, rfl, rfl⟩ := same.backward _ _ _ held move
      exact ⟨taken ++ [action], next, steps.step below, List.map_append,
        (same.forward _ _ _ held below).1, rfl⟩

end Bisimulates

end DarkStd.Semantics.System
