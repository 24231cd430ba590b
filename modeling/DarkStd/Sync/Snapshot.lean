import DarkStd.Sync.Equality

/-!
# A comparison sees one instant

While a comparison holds its guards nobody is in a write section of either
vector, so both contents stand still from the return of the second
`dirty_ref` until the first guard is dropped. What the loop has found out so
far is then still true when it has come to its result.
-/

namespace DarkStd.Sync

open DarkStd.Semantics

section Slices

variable {V : Type} {eq : V → V → Bool}

theorem isEqv_of_length_ne {xs ys : List V} (different : xs.length ≠ ys.length) :
    xs.isEqv ys eq = false := by
  induction xs generalizing ys with
  | nil =>
      cases ys with
      | nil => exact absurd rfl different
      | cons y ys => rfl
  | cons x xs inductionHypothesis =>
      cases ys with
      | nil => rfl
      | cons y ys =>
          rw [List.isEqv_cons_cons,
            inductionHypothesis fun same => different (congrArg (· + 1) same), Bool.and_false]

theorem isEqv_comm (symmetric : ∀ x y, eq x y = eq y x) (xs ys : List V) :
    xs.isEqv ys eq = ys.isEqv xs eq := by
  induction xs generalizing ys with
  | nil => cases ys <;> rfl
  | cons x xs inductionHypothesis =>
      cases ys with
      | nil => rfl
      | cons y ys => rw [List.isEqv_cons_cons, List.isEqv_cons_cons, symmetric, inductionHypothesis]

/-- The first elements of two lists and what follows them. -/
theorem isEqv_drop {xs ys : List V} {next : Nat} {x y : V} (left : xs[next]? = some x)
    (right : ys[next]? = some y) :
    (xs.drop next).isEqv (ys.drop next) eq =
      (eq x y && (xs.drop (next + 1)).isEqv (ys.drop (next + 1)) eq) := by
  obtain ⟨below, rfl⟩ := List.getElem?_eq_some_iff.mp left
  obtain ⟨below', rfl⟩ := List.getElem?_eq_some_iff.mp right
  rw [List.drop_eq_getElem_cons below, List.drop_eq_getElem_cons below', List.isEqv_cons_cons]

end Slices

namespace Comparison

variable {Index V : Type}

/-- What a comparison has found out is true of the two contents. -/
def Agrees (eq : V → V → Bool) (contents : Index → List V) : Comparison Index V → Prop
  | .lengths self _ _ _ (some length) => length = (contents self).length
  | .elements self other _ _ length next element =>
      (contents self).length = length ∧ (contents other).length = length ∧
        (∀ v, element = some v → (contents self)[next]? = some v) ∧
        ((contents self).drop next).isEqv ((contents other).drop next) eq =
          (contents self).isEqv (contents other) eq
  | .decided self other _ _ result => result = (contents self).isEqv (contents other) eq
  | .idle | .first .. | .held .. | .second .. | .lengths _ _ _ _ none | .dropped .. => True

variable {eq : V → V → Bool} {contents : Index → List V} {phase next : Comparison Index V}

/-- Reading on finds out what is true. -/
theorem Agrees.visits (agrees : phase.Agrees eq contents) (visits : Visits eq contents phase next) :
    next.Agrees eq contents := by
  cases visits with
  | length => exact rfl
  | sameLength same =>
      have length : _ = _ := agrees
      exact ⟨length.symm, same.symm, by simp, rfl⟩
  | otherLength different =>
      have length : _ = _ := agrees
      exact (isEqv_of_length_ne (length ▸ different)).symm
  | element below loaded =>
      obtain ⟨mine, its, -, rest⟩ := agrees
      exact ⟨mine, its, fun v same => same ▸ loaded, rest⟩
  | @finish self other _ _ length next past =>
      -- Both slices are exhausted.
      obtain ⟨mine, its, -, rest⟩ := agrees
      have none : (contents self).drop next = [] := List.drop_eq_nil_of_le (by omega)
      have none' : (contents other).drop next = [] := List.drop_eq_nil_of_le (by omega)
      rw [none, none'] at rest
      exact rest
  | sameElement loaded' same =>
      obtain ⟨mine, its, loaded, rest⟩ := agrees
      rw [isEqv_drop (loaded _ rfl) loaded', same, Bool.true_and] at rest
      exact ⟨mine, its, by simp, rest⟩
  | otherElement loaded' different =>
      obtain ⟨mine, its, loaded, rest⟩ := agrees
      rw [isEqv_drop (loaded _ rfl) loaded', different, Bool.false_and] at rest
      exact rest

/-- Only the contents of the vectors whose guards it holds matter. -/
theorem Agrees.congr {after : Index → List V} (agrees : phase.Agrees eq contents)
    (frozen : ∀ x id, (x, id) ∈ phase.guards → after x = contents x) :
    phase.Agrees eq after := by
  cases phase with
  | lengths self other left right length =>
      cases length with
      | none => trivial
      | some length =>
          have same := frozen self left List.mem_cons_self
          simpa only [Agrees, same] using agrees
  | elements self other left right length next element =>
      have same := frozen self left List.mem_cons_self
      have same' := frozen other right (List.mem_cons_of_mem _ List.mem_cons_self)
      simpa only [Agrees, same, same'] using agrees
  | decided self other left right result =>
      have same := frozen self left List.mem_cons_self
      have same' := frozen other right (List.mem_cons_of_mem _ List.mem_cons_self)
      simpa only [Agrees, same, same'] using agrees
  | _ => trivial

end Comparison

theorem State.Writes.inWriteSection {Thread : Type} {w : Nat} {s : State Thread w} {t : Thread}
    (writes : s.Writes t) : s.InWriteSection t := by
  rcases writes with call | guarded
  · left
    cases here : s.pc t <;> simp_all [Pc.isWriting, Pc.inWriteSection]
  · exact .inr guarded

namespace Vecs

variable {Index Thread V : Type} [DecidableEq Index] [DecidableEq Thread] {w : Nat}
variable {eq : V → V → Bool} {s next called last : Vecs Index Thread V w}
variable {contents : Index → List V} {action : VecAction Index Thread V}

/-- While a comparison holds a guard of a vector, its content stands still. -/
theorem Moves.frozen (move : Moves eq s action next)
    (reachable : (vecs Thread w eq contents).Reachable s) {t : Thread} {x : Index} {id : Nat}
    (holds : s.Holds t x id) : next.contents x = s.contents x := by
  obtain ⟨guard, live, -⟩ := holds
  cases move with
  | @change u y change writes =>
      have other : x ≠ y := by
        rintro rfl
        have drained := State.drained_of_reachable (container_reachable reachable x)
        exact drained.closed writes.inWriteSection (.inl (List.ne_nil_of_mem live))
      exact Function.update_of_ne other ..
  | _ => rfl

/-- What the comparisons have found out is true. -/
def Agree (eq : V → V → Bool) (s : Vecs Index Thread V w) : Prop :=
  ∀ t, (s.phases t).Agrees eq s.contents

theorem Agree.preserved (agree : s.Agree eq) (move : Moves eq s action next)
    (reachable : (vecs Thread w eq contents).Reachable s) : next.Agree eq := by
  intro t
  have kept : (s.phases t).Agrees eq next.contents :=
    (agree t).congr fun x id member =>
      move.frozen reachable ((held_of_reachable reachable).live t x id member)
  rcases move.turns t with ⟨same, -⟩ | turn
  · exact same ▸ kept
  · generalize next.phases t = phase at turn
    cases turn with
    | compare | held | second | lengths | dropped | returned => trivial
    | visit visits =>
        cases move
        exact kept.visits visits

theorem agree_of_reachable (reachable : (vecs Thread w eq contents).Reachable s) :
    s.Agree eq := by
  refine reachable.invariant (Agree eq) (fun _ start => ?_) ?_
  · cases start
    exact fun _ => trivial
  · rintro s action next prior agree ⟨-, stepped⟩
    exact agree.preserved (moves_of_step stepped) prior

omit [DecidableEq Index] [DecidableEq Thread] in
/-- A comparison goes on with its operands until it returns. -/
theorem Turns.operands_eq {t : Thread} {phase : Comparison Index V}
    (turn : Turns eq s t action phase) (comparing : s.phases t ≠ .idle) (still : phase ≠ .idle) :
    phase.operands = (s.phases t).operands := by
  cases turn with
  | compare here => exact absurd here comparing
  | held here | second here | lengths here | dropped here => rw [here]; rfl
  | visit visits => exact visits.operands_eq
  | returned => exact absurd rfl still

omit [DecidableEq Index] [DecidableEq Thread] in
/-- A comparison that is about to return has come from its result. -/
theorem Turns.decided_of_dropped {t : Thread} {self other : Index} {left : Nat} {result : Bool}
    (turn : Turns eq s t action (.dropped self other left result)) :
    ∃ right, s.phases t = .decided self other left right result := by
  cases turn with
  | visit visits => generalize s.phases t = phase at visits; cases visits
  | dropped here => exact ⟨_, here⟩

omit [DecidableEq Index] [DecidableEq Thread] in
/-- It returns by dropping its last guard. -/
theorem Turns.dropped_of_idle {t : Thread} (turn : Turns eq s t action .idle) :
    ∃ self other left result, s.phases t = .dropped self other left result := by
  cases turn with
  | visit visits => generalize s.phases t = phase at visits; cases visits
  | returned here => exact ⟨_, _, _, _, here⟩

/-- The contents were compared at some point of this run, with this result. -/
def Compared (eq : V → V → Bool) (contents : Index → List V) (self other : Index) (result : Bool)
    (called last : Vecs Index Thread V w) (actions : List (VecAction Index Thread V)) : Prop :=
  ∃ before now after, actions = before ++ after ∧
    (vecs Thread w eq contents).Steps called before now ∧
    (vecs Thread w eq contents).Steps now after last ∧
    result = (now.contents self).isEqv (now.contents other) eq

/-- What a running comparison compares, and when it did. -/
theorem compared_of_steps {t : Thread} {self other : Index}
    {actions : List (VecAction Index Thread V)}
    (reachable : (vecs Thread w eq contents).Reachable called)
    (run : ((vecs Thread w eq contents).restrict fun now _ => now.phases t ≠ .idle).Steps
      called actions last)
    (first : called.phases t = .first self other) (comparing : last.phases t ≠ .idle) :
    (last.phases t).operands = some (self, other) ∧
      ∀ left result, last.phases t = .dropped self other left result →
        Compared eq contents self other result called last actions := by
  induction run with
  | refl =>
      rw [first]
      exact ⟨rfl, fun _ _ here => by cases here⟩
  | @step actions middle action last prior move inductionHypothesis =>
      obtain ⟨before, moved⟩ := move
      obtain ⟨operands, compared⟩ := inductionHypothesis before
      have steps := prior.of_restrict
      have extends_ {result : Bool} (earlier : Compared eq contents self other result called middle
          actions) : Compared eq contents self other result called last (actions ++ [action]) := by
        obtain ⟨start, now, rest, rfl, reached, goesOn, result⟩ := earlier
        exact ⟨start, now, _, List.append_assoc .., reached, goesOn.step moved, result⟩
      rcases (moves_of_step moved.2).turns t with ⟨same, -⟩ | turn
      · rw [same]
        exact ⟨operands, fun left result here => extends_ (compared left result here)⟩
      · refine ⟨(turn.operands_eq before comparing).trans operands, fun left result here => ?_⟩
        rw [here] at turn
        obtain ⟨right, decided⟩ := turn.decided_of_dropped
        -- The instant is the one before the first guard is dropped.
        have agrees := agree_of_reachable (steps.reachable reachable) t
        rw [decided] at agrees
        exact ⟨actions, middle, [action], rfl, steps, .single moved, agrees⟩

end Vecs

/-- A comparison sees one common instant. When a call `self == other` returns,
in any interleaving with whatever else the threads do, there has been a state
between its call and its return at which its result is the element-wise
comparison of the two contents of that state, and that of `other == self` if
the equality of the elements is symmetric. -/
theorem comparison_sees_one_instant {Index V Thread : Type} [DecidableEq Index]
    [DecidableEq Thread] {w : Nat} (eq : V → V → Bool) (contents : Index → List V)
    {s called last returned : Vecs Index Thread V w} {t : Thread} {self other : Index}
    {actions : List (VecAction Index Thread V)} {action : VecAction Index Thread V}
    (reachable : (vecs Thread w eq contents).Reachable s)
    (calls : (vecs Thread w eq contents).Step s (.compare t self other) called)
    (run : ((vecs Thread w eq contents).restrict fun now _ => now.phases t ≠ .idle).Steps
      called actions last)
    (comparing : last.phases t ≠ .idle)
    (returns : (vecs Thread w eq contents).Step last action returned)
    (done : returned.phases t = .idle) :
    ∃ left result, last.phases t = .dropped self other left result ∧
      ∃ before now after, actions = before ++ after ∧
        (vecs Thread w eq contents).Steps called before now ∧
        (vecs Thread w eq contents).Steps now after last ∧
        result = (now.contents self).isEqv (now.contents other) eq ∧
        ((∀ x y, eq x y = eq y x) →
          result = (now.contents other).isEqv (now.contents self) eq) := by
  have first : called.phases t = .first self other := by
    cases Vecs.moves_of_step calls.2
    exact Vecs.goto_phases_self ..
  obtain ⟨operands, compared⟩ :=
    Vecs.compared_of_steps (reachable.step calls) run first comparing
  rcases (Vecs.moves_of_step returns.2).turns t with ⟨same, -⟩ | turn
  · exact absurd (same ▸ done) comparing
  · rw [done] at turn
    obtain ⟨self', other', left, result, here⟩ := turn.dropped_of_idle
    rw [here] at operands
    obtain ⟨rfl, rfl⟩ := Prod.mk.inj (Option.some.inj operands)
    obtain ⟨before, now, after, split, reached, rest, result_⟩ := compared left result here
    exact ⟨left, result, here, before, now, after, split, reached, rest, result_,
      fun symmetric => result_.trans (isEqv_comm symmetric ..)⟩

/-- A reader compares two equal vectors, and a writer of the other one has raised
its flag before the loop starts. -/
def comparisonRun {Thread V : Type} (reader writer : Thread) : List (VecAction Bool Thread V) :=
  List.replicate 6 (.sync false (.step reader)) ++
    [.sync false (.leaveRead reader (some .container)), .sync true (.read reader .dirtyRef)] ++
    List.replicate 6 (.sync true (.step reader)) ++
    [.sync true (.leaveRead reader (some .container)), .sync true (.write writer .push),
      .sync true (.step writer), .sync true (.step writer)] ++
    List.replicate 5 (.visit reader) ++ [.sync true (.dropRead reader 0)]

/-- It returns `true`, which is what the contents say at some instant before. -/
theorem equal_vectors_compare_equal : ∃ last now : Vecs Bool (Fin 2) Nat 64,
    last.phases 0 = .dropped false true 0 true ∧ (last.stores true).writing = true ∧
      true = (now.contents false).isEqv (now.contents true) (· == ·) := by
  let first : Vecs Bool (Fin 2) Nat 64 := .new (Fin 2) 64 fun _ => [7]
  let step := System.guarded (Vecs.step (· == ·)) fun (now : Vecs Bool (Fin 2) Nat 64) action =>
    action.AtOnePlace now
  let inside := System.guarded step fun (now : Vecs Bool (Fin 2) Nat 64) _ => now.phases 0 ≠ .idle
  obtain ⟨called, calls, met⟩ := (Option.any_eq_true _ _).mp
    (show (step first (.compare 0 false true)).any (fun called =>
      (System.execute inside called (comparisonRun 0 1)).any fun last =>
        decide (last.phases 0 = .dropped false true 0 true) && (last.stores true).writing &&
          (step last (.sync false (.dropRead 0 0))).any fun returned =>
            decide (returned.phases 0 = .idle)) = true by decide +kernel)
  obtain ⟨last, ran, met⟩ := (Option.any_eq_true _ _).mp met
  obtain ⟨met, finishes⟩ := Bool.and_eq_true_iff.mp met
  obtain ⟨here, up⟩ := Bool.and_eq_true_iff.mp met
  obtain ⟨returned, returns, done⟩ := (Option.any_eq_true _ _).mp finishes
  have here := of_decide_eq_true here
  have executed : (System.ofFunction first inside).Steps called (comparisonRun 0 1) last :=
    System.steps_of_execute ran
  have run : ((vecs (Fin 2) 64 (· == ·) fun _ : Bool => [7]).restrict fun now _ =>
      now.phases 0 ≠ .idle).Steps called (comparisonRun 0 1) last := by
    refine executed.mono fun now action next moved => ?_
    obtain ⟨comparing, moved⟩ := Option.ite_none_right_eq_some.mp moved
    exact ⟨comparing, Option.ite_none_right_eq_some.mp moved⟩
  obtain ⟨left, result, there, before, now, -, -, -, -, same, -⟩ :=
    comparison_sees_one_instant (· == ·) (fun _ => [7]) (.initial rfl)
      (Option.ite_none_right_eq_some.mp calls) run (by rw [here]; simp)
      (Option.ite_none_right_eq_some.mp returns) (of_decide_eq_true done)
  cases there.symm.trans here
  exact ⟨last, now, here, up, same⟩

end DarkStd.Sync
