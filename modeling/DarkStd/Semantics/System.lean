import Mathlib.Algebra.BigOperators.Group.Finset.Basic
import Mathlib.Data.Finset.Insert
import Mathlib.Logic.Function.Basic
import Mathlib.Order.WellFounded

/-!
# Labelled transition systems

Runs of a system are finite prefixes, so a property of every reachable state is
a safety property. `System.restrict` keeps the steps that meet a condition on
the state before them; it is how an assumption about a whole run is stated.
`System.Continues` is the existence of a finite continuation, and
`System.continues_of_rank` derives one from a rank that some step decreases.
-/

namespace DarkStd.Semantics

universe u v w

/-- What a run may start from, and what one atomic step may do. -/
structure System (State : Type u) (Action : Type v) where
  Initial : State → Prop
  Step : State → Action → State → Prop

namespace System

variable {State : Type u} {Action : Type v}

/-- Zero or more steps from a selected state, with their actions, oldest first. -/
inductive Steps (sys : System State Action) : State → List Action → State → Prop where
  | refl {state} : Steps sys state [] state
  | step {state actions middle action next}
      (prior : Steps sys state actions middle)
      (move : sys.Step middle action next) :
      Steps sys state (actions ++ [action]) next

/-- The states some finite run ends in. -/
inductive Reachable (sys : System State Action) : State → Prop where
  | initial {state} (start : sys.Initial state) : Reachable sys state
  | step {state action next} (prior : Reachable sys state)
      (move : sys.Step state action next) : Reachable sys next

/-- Keep the steps that meet `allowed`, a condition on the state before the step. -/
def restrict (sys : System State Action) (allowed : State → Action → Prop) :
    System State Action where
  Initial := sys.Initial
  Step state action next := allowed state action ∧ sys.Step state action next

/-- Some finite continuation leads from one state to the other. -/
def Continues (sys : System State Action) (state next : State) : Prop :=
  ∃ actions, sys.Steps state actions next

variable {sys : System State Action}

/-- A property that holds initially and that every step from a reachable state
preserves holds in every reachable state. -/
theorem Reachable.invariant (holds : State → Prop)
    (initial : ∀ state, sys.Initial state → holds state)
    (preserved : ∀ state action next, sys.Reachable state → holds state →
      sys.Step state action next → holds next)
    {state : State} (reachable : sys.Reachable state) : holds state := by
  induction reachable with
  | initial start => exact initial _ start
  | step prior move inductionHypothesis =>
      exact preserved _ _ _ prior inductionHypothesis move

/-- Compose two runs that meet at the same state. -/
theorem Steps.trans {first middle last : State} {before after : List Action}
    (prior : sys.Steps first before middle) (rest : sys.Steps middle after last) :
    sys.Steps first (before ++ after) last := by
  induction rest with
  | refl => simpa using prior
  | step _ move inductionHypothesis =>
      rw [← List.append_assoc]
      exact .step inductionHypothesis move

/-- A single step is a run. -/
theorem Steps.single {state next : State} {action : Action}
    (move : sys.Step state action next) : sys.Steps state [action] next :=
  .step .refl move

/-- A run of no actions stays where it is. -/
theorem Steps.of_nil {first last : State} (steps : sys.Steps first [] last) : first = last := by
  generalize none : ([] : List Action) = actions at steps
  cases steps with
  | refl => rfl
  | step => simp at none

/-- A run that begins with an action takes it first. -/
theorem Steps.of_cons {first last : State} {action : Action} {actions : List Action}
    (steps : sys.Steps first (action :: actions) last) :
    ∃ next, sys.Step first action next ∧ sys.Steps next actions last := by
  generalize listed : action :: actions = all at steps
  induction steps generalizing actions with
  | refl => cases listed
  | @step earlier middle final last prior move inductionHypothesis =>
      cases earlier with
      | nil =>
          obtain ⟨rfl, rfl⟩ := List.cons.inj listed
          cases prior.of_nil
          exact ⟨last, move, .refl⟩
      | cons head tail =>
          obtain ⟨rfl, rfl⟩ := List.cons.inj listed
          obtain ⟨next, taken, rest⟩ := inductionHypothesis rfl
          exact ⟨next, taken, .step rest move⟩

/-- A system that starts in the same states and can do more reaches more. -/
theorem Reachable.mono {wider : System State Action}
    (initial : ∀ state, sys.Initial state → wider.Initial state)
    (step : ∀ state action next, sys.Step state action next → wider.Step state action next)
    {state : State} (reachable : sys.Reachable state) : wider.Reachable state := by
  induction reachable with
  | initial start => exact .initial (initial _ start)
  | step _ move inductionHypothesis => exact .step inductionHypothesis (step _ _ _ move)

/-- A system that can do more has more runs. -/
theorem Steps.mono {wider : System State Action}
    (step : ∀ state action next, sys.Step state action next → wider.Step state action next)
    {state next : State} {actions : List Action} (steps : sys.Steps state actions next) :
    wider.Steps state actions next := by
  induction steps with
  | refl => exact .refl
  | step _ move inductionHypothesis => exact .step inductionHypothesis (step _ _ _ move)

/-- A run from a reachable state ends in a reachable state. -/
theorem Steps.reachable {state next : State} {actions : List Action}
    (steps : sys.Steps state actions next) (reachable : sys.Reachable state) :
    sys.Reachable next := by
  induction steps with
  | refl => exact reachable
  | step _ move inductionHypothesis => exact .step inductionHypothesis move

/-- A reachable state is where some run has ended. -/
theorem Reachable.exists_steps {state : State} (reachable : sys.Reachable state) :
    ∃ first actions, sys.Initial first ∧ sys.Steps first actions state := by
  induction reachable with
  | initial start => exact ⟨_, [], start, .refl⟩
  | step _ move inductionHypothesis =>
      obtain ⟨first, actions, start, steps⟩ := inductionHypothesis
      exact ⟨first, _, start, steps.step move⟩

/-- A property that every step preserves holds at the end of a run from a state
where it holds. -/
theorem Steps.preserves (holds : State → Prop)
    (preserved : ∀ state action next, holds state → sys.Step state action next → holds next)
    {state next : State} {actions : List Action}
    (steps : sys.Steps state actions next) (start : holds state) : holds next := by
  induction steps with
  | refl => exact start
  | step _ move inductionHypothesis => exact preserved _ _ _ inductionHypothesis move

/-- A map of states that respects every step both ways carries runs both ways. -/
theorem steps_map_iff {OtherState : Type w} {other : System OtherState Action}
    (embed : State → OtherState)
    (respects : ∀ state action last, other.Step (embed state) action last ↔
      ∃ next, sys.Step state action next ∧ embed next = last)
    {state : State} {actions : List Action} {last : OtherState} :
    other.Steps (embed state) actions last ↔
      ∃ next, sys.Steps state actions next ∧ embed next = last := by
  constructor
  · intro steps
    induction steps with
    | refl => exact ⟨state, .refl, rfl⟩
    | step _ move inductionHypothesis =>
        obtain ⟨middle, steps, rfl⟩ := inductionHypothesis
        obtain ⟨next, moved, ended⟩ := (respects _ _ _).mp move
        exact ⟨next, steps.step moved, ended⟩
  · rintro ⟨next, steps, rfl⟩
    induction steps with
    | refl => exact .refl
    | step _ move inductionHypothesis =>
        exact inductionHypothesis.step ((respects _ _ _).mpr ⟨_, move, rfl⟩)

@[refl] theorem Continues.refl (state : State) : sys.Continues state state :=
  ⟨[], .refl⟩

theorem Continues.single {state next : State} {action : Action}
    (move : sys.Step state action next) : sys.Continues state next :=
  ⟨[action], .single move⟩

theorem Continues.trans {first middle last : State}
    (prior : sys.Continues first middle) (rest : sys.Continues middle last) :
    sys.Continues first last := by
  obtain ⟨before, prior⟩ := prior
  obtain ⟨after, rest⟩ := rest
  exact ⟨before ++ after, prior.trans rest⟩

theorem Continues.reachable {state next : State} (continues : sys.Continues state next)
    (reachable : sys.Reachable state) : sys.Reachable next := by
  obtain ⟨_, steps⟩ := continues
  exact steps.reachable reachable

theorem Continues.preserves (holds : State → Prop)
    (preserved : ∀ state action next, holds state → sys.Step state action next → holds next)
    {state next : State} (continues : sys.Continues state next) (start : holds state) :
    holds next := by
  obtain ⟨_, steps⟩ := continues
  exact steps.preserves holds preserved start

/-- Map the steps of one system into continuations of another. -/
theorem Continues.map {OtherState : Type u} {OtherAction : Type v}
    {other : System OtherState OtherAction} (embed : State → OtherState)
    (simulate : ∀ state action next, sys.Step state action next →
      other.Continues (embed state) (embed next))
    {state next : State} (continues : sys.Continues state next) :
    other.Continues (embed state) (embed next) := by
  obtain ⟨_, steps⟩ := continues
  induction steps with
  | refl => exact .refl _
  | step _ move inductionHypothesis => exact inductionHypothesis.trans (simulate _ _ _ move)

/-- Progress from a rank: if some step decreases the rank from every state that
meets `holds` but not `goal`, then every state that meets `holds` has a finite
continuation to a state that meets both. -/
theorem continues_of_rank {Rank : Type w} {less : Rank → Rank → Prop}
    (wellFounded : WellFounded less) (rank : State → Rank) {holds goal : State → Prop}
    (advance : ∀ state, holds state → ¬ goal state →
      ∃ action next, sys.Step state action next ∧ holds next ∧ less (rank next) (rank state))
    (state : State) (start : holds state) :
    ∃ next, sys.Continues state next ∧ holds next ∧ goal next := by
  induction state using (InvImage.wf rank wellFounded).induction with
  | _ state inductionHypothesis =>
    by_cases done : goal state
    · exact ⟨state, .refl _, start, done⟩
    · obtain ⟨action, middle, move, holdsMiddle, smaller⟩ := advance state start done
      obtain ⟨next, rest, holdsNext, goalNext⟩ :=
        inductionHypothesis middle smaller holdsMiddle
      exact ⟨next, (Continues.single move).trans rest, holdsNext, goalNext⟩

/-- A sum over threads, say of their ranks, after one of them has moved. -/
theorem sum_add_of_others {Index : Type w} {indices : Finset Index} {before after : Index → Nat}
    {mover : Index} (involved : mover ∈ indices)
    (others : ∀ index, index ≠ mover → after index = before index) :
    ∑ index ∈ indices, after index + before mover =
      ∑ index ∈ indices, before index + after mover := by
  classical
  have split (value : Index → Nat) := Finset.add_sum_erase indices value involved
  have unmoved : ∑ index ∈ indices.erase mover, after index =
      ∑ index ∈ indices.erase mover, before index :=
    Finset.sum_congr rfl fun index member => others index (Finset.ne_of_mem_erase member)
  rw [← split after, ← split before, unmoved]
  omega

section Restrict

variable {allowed : State → Action → Prop}

theorem Reachable.of_restrict {state : State}
    (reachable : (sys.restrict allowed).Reachable state) : sys.Reachable state := by
  induction reachable with
  | initial start => exact .initial start
  | step _ move inductionHypothesis => exact .step inductionHypothesis move.2

theorem Steps.of_restrict {state next : State} {actions : List Action}
    (steps : (sys.restrict allowed).Steps state actions next) :
    sys.Steps state actions next :=
  steps.mono fun _ _ _ => And.right

theorem Continues.of_restrict {state next : State}
    (continues : (sys.restrict allowed).Continues state next) : sys.Continues state next := by
  obtain ⟨actions, steps⟩ := continues
  exact ⟨actions, steps.of_restrict⟩

/-- A condition may be weakened along a continuation. -/
theorem Continues.weaken {wider : State → Action → Prop}
    (widen : ∀ state action, allowed state action → wider state action)
    {state next : State} (continues : (sys.restrict allowed).Continues state next) :
    (sys.restrict wider).Continues state next := by
  refine continues.map id fun state action next move => ?_
  have moved : (sys.restrict wider).Step state action next :=
    ⟨widen state action move.1, move.2⟩
  exact .single moved

end Restrict

section Function

variable (start : State) (step : State → Action → Option State)

/-- The system of a partial step function: a step is enabled where it returns. -/
def ofFunction : System State Action where
  Initial state := state = start
  Step state action next := step state action = some next

/-- Execute a schedule, failing at the first step that is not enabled. -/
def execute (state : State) : List Action → Option State
  | [] => some state
  | action :: rest => (step state action).bind fun next => execute next rest

variable {start step}

/-- A schedule that executes is a run. -/
theorem steps_of_execute {state next : State} {actions : List Action}
    (executed : execute step state actions = some next) :
    (ofFunction start step).Steps state actions next := by
  induction actions generalizing state with
  | nil =>
      cases executed
      exact .refl
  | cons action rest inductionHypothesis =>
      obtain ⟨middle, move, executedRest⟩ := Option.bind_eq_some_iff.mp executed
      have moved : (ofFunction start step).Step state action middle := move
      exact (Steps.single moved).trans (inductionHypothesis executedRest)

theorem execute_append {state : State} {before after : List Action} :
    execute step state (before ++ after) =
      (execute step state before).bind fun next => execute step next after := by
  induction before generalizing state with
  | nil => rfl
  | cons action rest inductionHypothesis =>
      simp only [List.cons_append, execute, inductionHypothesis, Option.bind_assoc]

/-- A run is the execution of its schedule. -/
theorem execute_of_steps {state next : State} {actions : List Action}
    (steps : (ofFunction start step).Steps state actions next) :
    execute step state actions = some next := by
  induction steps with
  | refl => rfl
  | @step actions middle action next _ move inductionHypothesis =>
      have move : step middle action = some next := move
      rw [execute_append, inductionHypothesis]
      simp only [execute, Option.bind_some, move]

/-- A schedule has one outcome. -/
theorem Steps.unique {state next other : State} {actions : List Action}
    (first : (ofFunction start step).Steps state actions next)
    (second : (ofFunction start step).Steps state actions other) : next = other :=
  Option.some.inj ((execute_of_steps first).symm.trans (execute_of_steps second))

/-- The end of a schedule that executes from the start is reachable. -/
theorem reachable_of_execute {next : State} {actions : List Action}
    (executed : execute step start actions = some next) :
    (ofFunction start step).Reachable next :=
  (steps_of_execute executed).reachable (.initial rfl)

/-- A schedule that executes to a state with a decided property is a run to one. -/
theorem exists_steps_of_execute {state : State} (meets : State → Bool) {actions : List Action}
    (executed : (execute step state actions).any meets = true) :
    ∃ next, (ofFunction start step).Steps state actions next ∧ meets next = true := by
  obtain ⟨next, ran, met⟩ := (Option.any_eq_true _ _).mp executed
  exact ⟨next, steps_of_execute ran, met⟩

/-- A schedule that executes to a state with a decided property. -/
theorem exists_reachable_of_execute (meets : State → Bool) {actions : List Action}
    (executed : (execute step start actions).any meets = true) :
    ∃ next, (ofFunction start step).Reachable next ∧ meets next = true := by
  obtain ⟨next, ran, met⟩ := (Option.any_eq_true _ _).mp executed
  exact ⟨next, reachable_of_execute ran, met⟩

section Guarded

variable (step) (allowed : State → Action → Prop)
  [∀ state action, Decidable (allowed state action)]

/-- The step function of a restricted system. -/
def guarded (state : State) (action : Action) : Option State :=
  if allowed state action then step state action else none

variable {step allowed}

theorem steps_of_execute_guarded {state next : State} {actions : List Action}
    (executed : execute (guarded step allowed) state actions = some next) :
    ((ofFunction start step).restrict allowed).Steps state actions next := by
  have steps : (ofFunction start (guarded step allowed)).Steps state actions next :=
    steps_of_execute executed
  exact steps.mono fun _ _ _ => Option.ite_none_right_eq_some.mp

theorem execute_guarded_of_steps {state next : State} {actions : List Action}
    (steps : ((ofFunction start step).restrict allowed).Steps state actions next) :
    execute (guarded step allowed) state actions = some next := by
  have guarded : (ofFunction start (guarded step allowed)).Steps state actions next :=
    steps.mono fun _ _ _ => Option.ite_none_right_eq_some.mpr
  exact execute_of_steps guarded

theorem reachable_of_execute_guarded {next : State} {actions : List Action}
    (executed : execute (guarded step allowed) start actions = some next) :
    ((ofFunction start step).restrict allowed).Reachable next :=
  (steps_of_execute_guarded executed).reachable (.initial rfl)

theorem exists_reachable_of_execute_guarded (meets : State → Bool) {actions : List Action}
    (executed : (execute (guarded step allowed) start actions).any meets = true) :
    ∃ next, ((ofFunction start step).restrict allowed).Reachable next ∧ meets next = true := by
  obtain ⟨next, ran, met⟩ := (Option.any_eq_true _ _).mp executed
  exact ⟨next, reachable_of_execute_guarded ran, met⟩

end Guarded

end Function

section Family

variable {Index : Type w} [DecidableEq Index]

/-- A family of systems run side by side: every step is one component's. -/
def family (members : Index → System State Action) :
    System (Index → State) (Index × Action) where
  Initial states := ∀ index, (members index).Initial (states index)
  Step states action next := ∃ moved,
    (members action.1).Step (states action.1) action.2 moved ∧
      next = Function.update states action.1 moved

variable {members : Index → System State Action}

/-- Every component of a reachable family is reachable by itself. -/
theorem Reachable.component {states : Index → State}
    (reachable : (family members).Reachable states) (index : Index) :
    (members index).Reachable (states index) := by
  induction reachable with
  | initial start => exact .initial (start index)
  | @step states action next _ move inductionHypothesis =>
      obtain ⟨moved, move, rfl⟩ := move
      by_cases same : index = action.1
      · subst same
        rw [Function.update_self]
        exact .step inductionHypothesis move
      · rw [Function.update_of_ne same]
        exact inductionHypothesis

/-- So is the run of every component, with the actions on it. -/
theorem Steps.component {states last : Index → State} {actions : List (Index × Action)}
    (steps : (family members).Steps states actions last) (index : Index) :
    (members index).Steps (states index)
      (actions.filterMap fun action => if action.1 = index then some action.2 else none)
      (last index) := by
  induction steps with
  | refl => exact .refl
  | @step actions middle action _ _ move inductionHypothesis =>
      obtain ⟨moved, move, rfl⟩ := move
      rw [List.filterMap_append]
      by_cases same : action.1 = index
      · subst same
        rw [Function.update_self]
        simpa using inductionHypothesis.step move
      · rw [Function.update_of_ne (Ne.symm same)]
        simpa [same] using inductionHypothesis

/-- The step function of a family of partial step functions. -/
def familyStep (step : Index → State → Action → Option State) (states : Index → State)
    (action : Index × Action) : Option (Index → State) :=
  (step action.1 (states action.1) action.2).map (Function.update states action.1)

/-- A schedule that executes is a run of the family. -/
theorem reachable_of_execute_family {start : Index → State}
    {step : Index → State → Action → Option State}
    {allowed : (Index → State) → Index × Action → Prop}
    [∀ states action, Decidable (allowed states action)] {last : Index → State}
    {actions : List (Index × Action)}
    (executed : execute (guarded (familyStep step) allowed) start actions = some last) :
    ((family fun index => ofFunction (start index) (step index)).restrict allowed).Reachable
      last := by
  refine Reachable.mono ?_ ?_ (reachable_of_execute_guarded executed)
  · rintro states rfl index
    rfl
  · rintro states action next ⟨permitted, stepped⟩
    obtain ⟨moved, below, rfl⟩ := Option.map_eq_some_iff.mp stepped
    exact ⟨permitted, moved, below, rfl⟩

/-- What can be brought about for each component by itself can be brought about
for any finite number of them, one after the other. -/
theorem continues_each {sys : System (Index → State) Action} {goal : State → Prop}
    {holds : (Index → State) → Prop}
    (each : ∀ states index, holds states → ∃ next,
      sys.Continues states (Function.update states index next) ∧ goal next ∧
        holds (Function.update states index next))
    (indices : Finset Index) (states : Index → State) (start : holds states) :
    ∃ last, sys.Continues states last ∧ holds last ∧ (∀ index ∈ indices, goal (last index)) ∧
      ∀ index, index ∉ indices → last index = states index := by
  induction indices using Finset.induction_on with
  | empty => exact ⟨states, .refl _, start, by simp, fun _ _ => rfl⟩
  | @insert index indices missing inductionHypothesis =>
      obtain ⟨middle, before, held, goals, unchanged⟩ := inductionHypothesis
      obtain ⟨next, after, reached, holds⟩ := each middle index held
      refine ⟨_, before.trans after, holds, fun other member => ?_, fun other outside => ?_⟩
      · by_cases same : other = index
        · rw [same, Function.update_self]
          exact reached
        · rw [Function.update_of_ne same]
          exact goals other (Finset.mem_of_mem_insert_of_ne member same)
      · rw [Finset.mem_insert, not_or] at outside
        rw [Function.update_of_ne outside.1]
        exact unchanged other outside.2

end Family

end System

end DarkStd.Semantics
