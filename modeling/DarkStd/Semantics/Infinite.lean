import Mathlib.Logic.Function.Iterate
import DarkStd.Semantics.System

/-!
# Runs that never end

An infinite run is put together from finite segments: if from every state that
meets a condition some actions lead to one that meets it again, there is a run
that goes on for ever, and what every segment does is done again and again.

A run is fair to an action that it does not pass over where the action can be
taken from some point on. Such an action is taken if nothing else gets in its
way, and it cannot lower a rank for ever.
-/

namespace DarkStd.Semantics.System

universe u v

variable {State : Type u} {Action : Type v}

/-- A run from a selected state that goes on for ever. -/
structure Forever (sys : System State Action) (start : State) where
  stateAt : Nat → State
  actionAt : Nat → Action
  stateZero : stateAt 0 = start
  step : ∀ index, sys.Step (stateAt index) (actionAt index) (stateAt (index + 1))

variable {sys : System State Action}

/-- Wherever the run is, the action is still to come. -/
def Forever.Recurs {start : State} (run : sys.Forever start) (action : Action) : Prop :=
  ∀ index, ∃ later, index ≤ later ∧ run.actionAt later = action

/-- The action is taken or cannot be taken, again and again. -/
def Forever.Fair {start : State} (run : sys.Forever start) (action : Action) : Prop :=
  ∀ index, ∃ later, index ≤ later ∧
    (run.actionAt later = action ∨ ¬ ∃ next, sys.Step (run.stateAt later) action next)

/-- Every state of an infinite run is reached by a finite one. -/
theorem Forever.reachable {start : State} (run : sys.Forever start)
    (reachable : sys.Reachable start) (index : Nat) : sys.Reachable (run.stateAt index) := by
  induction index with
  | zero => exact run.stateZero.symm ▸ reachable
  | succ index inductionHypothesis => exact inductionHypothesis.step (run.step index)

/-- What the steps of a restricted run are allowed for holds all along it. -/
theorem Forever.allowed {allowed : State → Action → Prop} {start : State}
    (run : (sys.restrict allowed).Forever start) (index : Nat) :
    allowed (run.stateAt index) (run.actionAt index) :=
  (run.step index).1

/-- An infinite run of a restricted system is one of the system. -/
def Forever.unrestrict {allowed : State → Action → Prop} {start : State}
    (run : (sys.restrict allowed).Forever start) : sys.Forever start where
  stateAt := run.stateAt
  actionAt := run.actionAt
  stateZero := run.stateZero
  step index := (run.step index).2

/-- A run whose steps keep a property, as a run of another system with the same
steps that is restricted to that property. -/
theorem Steps.keep {wider : System State Action} {holds : State → Prop}
    (step : ∀ state action next, holds state → sys.Step state action next →
      holds next ∧ wider.Step state action next)
    {state next : State} {actions : List Action} (steps : sys.Steps state actions next)
    (start : holds state) :
    holds next ∧ (wider.restrict fun now _ => holds now).Steps state actions next := by
  induction steps with
  | refl => exact ⟨start, .refl⟩
  | step _ move inductionHypothesis =>
      obtain ⟨before, steps⟩ := inductionHypothesis
      obtain ⟨after, moved⟩ := step _ _ _ before move
      exact ⟨after, steps.step ⟨before, moved⟩⟩

section Fairness

variable {start : State} {run : sys.Forever start} {action : Action} {first : Nat}

/-- What recurs need not be possible all the time. -/
theorem Forever.Recurs.fair (recurs : run.Recurs action) : run.Fair action := fun index =>
  let ⟨later, after, taken⟩ := recurs index
  ⟨later, after, .inl taken⟩

/-- What ends ends at some step. -/
theorem Forever.exists_end (run : sys.Forever start) (holds : State → Prop)
    (begins : holds (run.stateAt first)) {last : Nat} (after : first ≤ last)
    (ended : ¬ holds (run.stateAt last)) :
    ∃ index, first ≤ index ∧ holds (run.stateAt index) ∧ ¬ holds (run.stateAt (index + 1)) := by
  by_contra never
  apply ended
  clear ended
  induction last, after using Nat.le_induction with
  | base => exact begins
  | succ later after inductionHypothesis =>
      exact by_contra fun ends => never ⟨later, after, inductionHypothesis, ends⟩

/-- What every step from some point on keeps holds from there on. -/
theorem Forever.keeps (run : sys.Forever start) (holds : State → Prop)
    (begins : holds (run.stateAt first))
    (kept : ∀ index, first ≤ index → holds (run.stateAt index) → holds (run.stateAt (index + 1)))
    (index : Nat) (after : first ≤ index) : holds (run.stateAt index) := by
  induction index, after using Nat.le_induction with
  | base => exact begins
  | succ index after inductionHypothesis => exact kept index after inductionHypothesis

/-- What can be done until it is done is done. -/
theorem Forever.Fair.leads (fair : run.Fair action) (holds : State → Prop)
    (begins : holds (run.stateAt first))
    (possible : ∀ index, first ≤ index → holds (run.stateAt index) →
      ∃ next, sys.Step (run.stateAt index) action next)
    (stays : ∀ index, first ≤ index → holds (run.stateAt index) → run.actionAt index ≠ action →
      holds (run.stateAt (index + 1))) :
    ∃ later, first ≤ later ∧ holds (run.stateAt later) ∧ run.actionAt later = action := by
  by_contra never
  have always : ∀ later, first ≤ later → holds (run.stateAt later) :=
    run.keeps holds begins fun later after met => stays later after met fun taken =>
      never ⟨later, after, met, taken⟩
  obtain ⟨later, after, taken | impossible⟩ := fair first
  · exact never ⟨later, after, always later after, taken⟩
  · exact impossible (possible later after (always later after))

/-- What can always be done does not lower a rank for ever. -/
theorem Forever.Fair.no_descent (fair : run.Fair action) (rank : State → Nat)
    (possible : ∀ index, first ≤ index → ∃ next, sys.Step (run.stateAt index) action next)
    (still : ∀ index, first ≤ index → run.actionAt index ≠ action →
      rank (run.stateAt (index + 1)) ≤ rank (run.stateAt index))
    (lowers : ∀ index, first ≤ index → run.actionAt index = action →
      rank (run.stateAt (index + 1)) < rank (run.stateAt index)) : False := by
  have bounded (bound : Nat) : ∀ index, first ≤ index → rank (run.stateAt index) < bound →
      False := by
    induction bound with
    | zero => exact fun index _ below => Nat.not_lt_zero _ below
    | succ bound inductionHypothesis =>
        intro index after below
        obtain ⟨later, past, low, taken⟩ := fair.leads (fun state => rank state ≤ bound)
          (Nat.le_of_lt_succ below) (fun later past _ => possible later (after.trans past))
          (fun later past low other => (still later (after.trans past) other).trans low)
        have reached : first ≤ later := after.trans past
        exact inductionHypothesis (later + 1) (Nat.le_succ_of_le reached)
          ((lowers later reached taken).trans_le low)
  exact bounded _ first (Nat.le_refl _) (Nat.lt_succ_self _)

end Fairness

section Segments

/-- Inside a segment: where the run is, and what is left of the segment. -/
structure Position (sys : System State Action) (holds : State → Prop) where
  state : State
  action : Action
  rest : List Action
  leads : ∃ last, sys.Steps state (action :: rest) last ∧ holds last

namespace Position

variable {holds : State → Prop} {required : Action → Prop}

/-- One position after another, within a segment and then into a new one. -/
structure Follows (required : Action → Prop) (position next : Position sys holds) : Prop where
  move : sys.Step position.state position.action next.state
  further : position.rest = next.action :: next.rest ∨
    (position.rest = [] ∧ ∀ action, required action → action ∈ next.action :: next.rest)

/-- The first position of a segment. -/
theorem exists_first
    (segment : ∀ state, holds state → ∃ actions last, actions ≠ [] ∧
      sys.Steps state actions last ∧ holds last ∧ ∀ action, required action → action ∈ actions)
    (state : State) (met : holds state) :
    ∃ position : Position sys holds, position.state = state ∧
      ∀ action, required action → action ∈ position.action :: position.rest := by
  obtain ⟨actions, last, nonempty, steps, again, all⟩ := segment state met
  cases actions with
  | nil => exact absurd rfl nonempty
  | cons action rest => exact ⟨⟨state, action, rest, last, steps, again⟩, rfl, all⟩

theorem exists_follows
    (segment : ∀ state, holds state → ∃ actions last, actions ≠ [] ∧
      sys.Steps state actions last ∧ holds last ∧ ∀ action, required action → action ∈ actions)
    (position : Position sys holds) : ∃ next, Follows required position next := by
  obtain ⟨state, action, rest, last, steps, met⟩ := position
  obtain ⟨middle, move, steps⟩ := steps.of_cons
  cases rest with
  | nil =>
      cases steps.of_nil
      obtain ⟨next, here, all⟩ := exists_first segment last met
      exact ⟨next, here ▸ move, .inr ⟨rfl, all⟩⟩
  | cons second rest => exact ⟨⟨middle, second, rest, last, steps, met⟩, move, .inl rfl⟩

variable {next : Position sys holds → Position sys holds}
variable (follows : ∀ position, Follows required position (next position))
include follows

/-- What is left of a segment is done. -/
theorem done {wanted : Action} (left : List Action) (position : Position sys holds)
    (same : position.action :: position.rest = left) (member : wanted ∈ left) :
    ∃ count, (next^[count] position).action = wanted := by
  induction left generalizing position with
  | nil => cases same
  | cons head rest inductionHypothesis =>
      obtain ⟨rfl, rfl⟩ := List.cons.inj same
      rcases List.mem_cons.mp member with rfl | member
      · exact ⟨0, rfl⟩
      · rcases (follows position).further with unfolds | ⟨ended, -⟩
        · obtain ⟨count, found⟩ := inductionHypothesis (next position) unfolds.symm member
          exact ⟨count + 1, found⟩
        · rw [ended] at member
          cases member

/-- What every segment does is done wherever the run is. -/
theorem required_done {wanted : Action} (recurs : required wanted) (left : List Action)
    (position : Position sys holds) (same : position.rest = left) :
    ∃ count, (next^[count] position).action = wanted := by
  induction left generalizing position with
  | nil =>
      rcases (follows position).further with unfolds | ⟨-, all⟩
      · rw [same] at unfolds
        cases unfolds
      · obtain ⟨count, found⟩ := done follows _ (next position) rfl (all wanted recurs)
        exact ⟨count + 1, found⟩
  | cons head rest inductionHypothesis =>
      rcases (follows position).further with unfolds | ⟨ended, -⟩
      · obtain ⟨-, same⟩ := List.cons.inj (same.symm.trans unfolds)
        obtain ⟨count, found⟩ := inductionHypothesis (next position) same.symm
        exact ⟨count + 1, found⟩
      · cases ended.symm.trans same

end Position

/-- From a state that meets the condition there is an infinite run in which the
actions that are in every segment recur. -/
theorem exists_forever {holds : State → Prop} {required : Action → Prop}
    (segment : ∀ state, holds state → ∃ actions last, actions ≠ [] ∧
      sys.Steps state actions last ∧ holds last ∧ ∀ action, required action → action ∈ actions)
    (start : State) (met : holds start) :
    ∃ run : sys.Forever start, ∀ action, required action → run.Recurs action := by
  choose next follows using Position.exists_follows segment
  obtain ⟨first, rfl, -⟩ := Position.exists_first segment start met
  let run : sys.Forever first.state := {
    stateAt := fun index => (next^[index] first).state
    actionAt := fun index => (next^[index] first).action
    stateZero := rfl
    step := fun index => by
      rw [Function.iterate_succ_apply']
      exact (follows _).move }
  refine ⟨run, fun action recurs index => ?_⟩
  obtain ⟨count, found⟩ := Position.required_done follows recurs _ (next^[index] first) rfl
  refine ⟨count + index, Nat.le_add_left .., ?_⟩
  rw [← found, ← Function.iterate_add_apply]

end Segments

end DarkStd.Semantics.System
