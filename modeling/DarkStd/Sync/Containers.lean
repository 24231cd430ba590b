import Mathlib.Data.Fintype.Defs
import DarkStd.Sync.Quiescence

/-!
# Any number of containers

A thread is at one place at a time, so a call on one container keeps it out of
all others, and what it holds elsewhere it cannot drop meanwhile. If no thread
calls a method while it holds a guard of any container, every container can be
brought to rest by itself, after the drops that are under way have ended.
-/

namespace DarkStd.Sync

open DarkStd.Semantics State

section Runs

variable {Index Thread : Type} {w : Nat}

/-- A thread starts a call or a drop, and takes an iterator over, only between
its own calls and drops, on whatever container they are. -/
def AtOnePlace (states : Index → State Thread w) : Index × Action Thread → Prop
  | (_, .read t _) | (_, .write t _) | (_, .dropRead t _) | (_, .dropWrite t _) | (_, .send _ t) =>
      ∀ c, (states c).pc t = .idle
  | (_, .step _) | (_, .leaveRead _ _) | (_, .leaveWrite _ _) => True

instance [Fintype Index] (states : Index → State Thread w) :
    ∀ action, Decidable (AtOnePlace states action)
  | (_, .read t _) | (_, .write t _) | (_, .dropRead t _) | (_, .dropWrite t _) | (_, .send _ t) =>
      inferInstanceAs (Decidable (∀ c, (states c).pc t = .idle))
  | (_, .step _) | (_, .leaveRead _ _) | (_, .leaveWrite _ _) => inferInstanceAs (Decidable True)

/-- No method is called by a thread that holds a guard or an iterator. -/
def NonNested (states : Index → State Thread w) : Index × Action Thread → Prop
  | (_, .read t _) | (_, .write t _) => ∀ c, ¬ (states c).HoldsGuard t
  | _ => True

instance [Fintype Index] [DecidableEq Thread] (states : Index → State Thread w) :
    ∀ action, Decidable (NonNested states action)
  | (_, .read t _) | (_, .write t _) =>
      inferInstanceAs (Decidable (∀ c, ¬ (states c).HoldsGuard t))
  | (_, .step _) | (_, .leaveRead _ _) | (_, .leaveWrite _ _) | (_, .dropRead _ _)
  | (_, .dropWrite _ _) | (_, .send _ _) => inferInstanceAs (Decidable True)

variable [DecidableEq Index] [DecidableEq Thread] (kind : Index → Kind)

/-- Any number of containers, used by any number of threads. -/
def containers (Thread : Type) [DecidableEq Thread] (w : Nat) :
    System (Index → State Thread w) (Index × Action Thread) :=
  (System.family fun c => container (kind c) Thread w).restrict AtOnePlace

/-- The runs without nested calls. -/
def nonNested (Thread : Type) [DecidableEq Thread] (w : Nat) :
    System (Index → State Thread w) (Index × Action Thread) :=
  (containers kind Thread w).restrict NonNested

/-- Steps of calls already started and drops of guards, in such a run. -/
def finishingAll (Thread : Type) [DecidableEq Thread] (w : Nat) :
    System (Index → State Thread w) (Index × Action Thread) :=
  (nonNested kind Thread w).restrict fun _ action => action.2.finishes

end Runs

variable {Index Thread : Type} {w : Nat} {kind : Index → Kind} {states : Index → State Thread w}

/-- Where threads are, and where they hold guards. -/
structure Placed (states : Index → State Thread w) : Prop where
  one_place : ∀ c d t, c ≠ d → (states c).pc t ≠ .idle → (states d).pc t = .idle
  holders_outside : ∀ c d t, (states c).HoldsGuard t → ((states d).pc t).outside = true

theorem Placed.new : Placed fun _ : Index => State.new Thread w where
  one_place _ _ _ _ busy := absurd rfl busy
  holders_outside _ _ _ _ := rfl

/-- No drop of a write lock is under way. -/
def Dropped (states : Index → State Thread w) : Prop :=
  ∀ c t, dropRank ((states c).pc t) = 0

variable [DecidableEq Thread]

namespace State

variable {kind : Kind} {s next : State Thread w} {action : Action Thread}

/-- Only finitely many threads have been involved with a container. -/
theorem exists_involved (reachable : (container kind Thread w).Reachable s) :
    ∃ threads : Finset Thread, ∀ t, t ∉ threads → s.Uninvolved t := by
  refine reachable.invariant (fun s : State Thread w =>
    ∃ threads : Finset Thread, ∀ t, t ∉ threads → s.Uninvolved t) ?_ ?_
  · rintro _ rfl
    exact ⟨∅, fun t _ => ⟨rfl, by simp [HoldsGuard, HoldsReadGuard, State.new]⟩⟩
  · rintro s action next - ⟨threads, covered⟩ stepped
    refine ⟨insert action.thread threads, fun t missing => ?_⟩
    rw [Finset.mem_insert, not_or] at missing
    exact (moves_of_step stepped).uninvolved missing.1 (covered t missing.2)

end State

namespace Placed

variable (placed : Placed states)
include placed

/-- The thread of a step is in no other container. -/
theorem idle_elsewhere {index : Index} {action : Action Thread} {moved : State Thread w}
    (move : Moves (kind index) (states index) action moved)
    (atOnePlace : AtOnePlace states (index, action)) {c : Index} (other : c ≠ index) :
    (states c).pc action.thread = .idle := by
  cases move with
  | read | write | dropRead | dropWrite | send => exact atOnePlace c
  | _ =>
      refine placed.one_place index c _ other.symm ?_
      simp_all

variable [DecidableEq Index]

theorem preserved {index : Index} {action : Action Thread} {moved : State Thread w}
    (move : Moves (kind index) (states index) action moved)
    (atOnePlace : AtOnePlace states (index, action))
    (nonNested : NonNested states (index, action)) :
    Placed (Function.update states index moved) := by
  have pcs : ∀ c t, t ≠ action.thread →
      (Function.update states index moved c).pc t = (states c).pc t := by
    intro c t other
    by_cases here : c = index
    · subst here
      rw [Function.update_self]
      exact move.pc_of_ne other
    · rw [Function.update_of_ne here]
  constructor
  · intro c d t different busy
    by_cases actor : t = action.thread
    · subst actor
      by_cases here : c = index
      · subst here
        rw [Function.update_of_ne different.symm]
        exact placed.idle_elsewhere move atOnePlace different.symm
      · rw [Function.update_of_ne here] at busy
        exact absurd (placed.idle_elsewhere move atOnePlace here) busy
    · rw [pcs _ t actor] at busy ⊢
      exact placed.one_place c d t different busy
  · intro c d t holds
    by_cases actor : t = action.thread
    · subst actor
      by_cases there : d = index
      · subst there
        by_contra inside
        rw [Function.update_self] at inside
        obtain ⟨⟨readGuards, writeGuards⟩, before⟩ := move.inside_before (by simpa using inside)
        have held : (states c).HoldsGuard action.thread := by
          by_cases here : c = d
          · subst here
            rwa [Function.update_self, HoldsGuard, HoldsReadGuard, readGuards, writeGuards] at holds
          · rwa [Function.update_of_ne here] at holds
        rcases before with before | ⟨t, method, rfl⟩ | ⟨t, method, rfl⟩
        · rw [placed.holders_outside c d _ held] at before
          cases before
        · exact nonNested c held
        · exact nonNested c held
      · rw [Function.update_of_ne there, placed.idle_elsewhere move atOnePlace there]
        rfl
    · rw [pcs _ t actor]
      refine placed.holders_outside c d t ?_
      by_cases here : c = index
      · subst here
        rw [Function.update_self] at holds
        exact move.holdsGuard_of_ne actor holds
      · rwa [Function.update_of_ne here] at holds

end Placed

variable [DecidableEq Index]

/-- What every reachable state of containers without nested calls satisfies. -/
structure Rested (kind : Index → Kind) (states : Index → State Thread w) : Prop where
  reachable : ∀ c, (container (kind c) Thread w).Reachable (states c)
  placed : Placed states

theorem rested_of_reachable (reachable : (nonNested kind Thread w).Reachable states) :
    Rested kind states := by
  refine ⟨reachable.of_restrict.of_restrict.component, ?_⟩
  refine reachable.invariant Placed ?_ ?_
  · intro states start
    rw [funext start]
    exact .new
  · rintro states ⟨index, action⟩ _ - placed ⟨nonNested, atOnePlace, moved, stepped, rfl⟩
    exact placed.preserved (moves_of_step stepped) atOnePlace nonNested

/-- Only finitely many containers have been used. -/
theorem exists_used (reachable : (nonNested kind Thread w).Reachable states) :
    ∃ indices : Finset Index, ∀ c, c ∉ indices → states c = .new Thread w := by
  refine reachable.invariant (fun states : Index → State Thread w =>
    ∃ indices : Finset Index, ∀ c, c ∉ indices → states c = .new Thread w) ?_ ?_
  · exact fun states start => ⟨∅, fun c _ => start c⟩
  · rintro states ⟨index, action⟩ _ - ⟨indices, unused⟩ ⟨-, -, moved, -, rfl⟩
    refine ⟨insert index indices, fun c missing => ?_⟩
    rw [Finset.mem_insert, not_or] at missing
    rw [Function.update_of_ne missing.1]
    exact unused c missing.2

/-- What threads that are nowhere else can finish on one container they can
finish among all of them. -/
theorem finishingAll_step {c : Index} {threads : Finset Thread} {s next : State Thread w}
    {action : Action Thread}
    (elsewhere : ∀ t ∈ threads, ∀ d, d ≠ c → (states d).pc t = .idle)
    (move : (finishing (kind c) w threads).Step s action next) :
    (finishingAll kind Thread w).Step (Function.update states c s) (c, action)
      (Function.update states c next) := by
  obtain ⟨⟨finishes, involved⟩, stepped⟩ := move
  have idle (here : s.pc action.thread = .idle) (d : Index) :
      (Function.update states c s d).pc action.thread = .idle := by
    by_cases same : d = c
    · rwa [same, Function.update_self]
    · rw [Function.update_of_ne same]
      exact elsewhere _ involved d same
  have atOnePlace : AtOnePlace (Function.update states c s) (c, action) := by
    cases moves_of_step stepped with
    | read | write | send => cases finishes
    | dropRead here => exact idle here
    | dropWrite here => exact idle here
    | _ => trivial
  have nonNested : NonNested (Function.update states c s) (c, action) := by
    cases action <;> trivial
  refine ⟨finishes, nonNested, atOnePlace, next, ?_, ?_⟩
  · rwa [Function.update_self]
  · rw [Function.update_idem]

theorem continues_of_finishing {c : Index} {threads : Finset Thread} {next : State Thread w}
    (elsewhere : ∀ t ∈ threads, ∀ d, d ≠ c → (states d).pc t = .idle)
    (continues : (finishing (kind c) w threads).Continues (states c) next) :
    (finishingAll kind Thread w).Continues states (Function.update states c next) := by
  have embedded : (finishingAll kind Thread w).Continues
      (Function.update states c (states c)) (Function.update states c next) :=
    continues.map (Function.update states c) fun _ _ _ move =>
      .single (finishingAll_step elsewhere move)
  rwa [Function.update_eq_self] at embedded

/-- The drops of write locks that are under way on one container can end. -/
theorem continues_to_dropped_at (reachable : (nonNested kind Thread w).Reachable states)
    (c : Index) : ∃ next,
      (finishingAll kind Thread w).Continues states (Function.update states c next) ∧
        ∀ t, dropRank (next.pc t) = 0 := by
  classical
  obtain ⟨below, placed⟩ := rested_of_reachable reachable
  obtain ⟨threads, covered⟩ := exists_involved (below c)
  have idle : dropRank .idle = 0 := rfl
  have dropping : ∀ t, dropRank ((states c).pc t) ≠ 0 →
      t ∈ threads.filter fun t => dropRank ((states c).pc t) ≠ 0 := by
    intro t busy
    refine Finset.mem_filter.mpr ⟨?_, busy⟩
    by_contra missing
    exact busy (by rw [(covered t missing).1, idle])
  obtain ⟨next, continues, dropped⟩ := continues_to_dropped dropping
  refine ⟨next, continues_of_finishing (fun t member d other => ?_) continues, dropped⟩
  refine placed.one_place c d t other.symm fun here => (Finset.mem_filter.mp member).2 ?_
  rw [here, idle]

/-- Any one container can be brought to rest. -/
theorem continues_to_quiescent_at (reachable : (nonNested kind Thread w).Reachable states)
    (dropped : Dropped states) (c : Index) : ∃ next,
      (finishingAll kind Thread w).Continues states (Function.update states c next) ∧
        next.Quiescent := by
  classical
  obtain ⟨below, placed⟩ := rested_of_reachable reachable
  obtain ⟨threads, covered⟩ := exists_involved (below c)
  have settling : (states c).Settling (kind c)
      (threads.filter fun t => ¬ (states c).Uninvolved t) := by
    refine ⟨below c, fun t holds => placed.holders_outside c c t holds, fun t missing => ?_⟩
    by_contra involved
    refine missing (Finset.mem_filter.mpr ⟨?_, involved⟩)
    by_contra outside
    exact involved (covered t outside)
  obtain ⟨next, continues, quiescent⟩ := settling.continues_to_quiescent
  refine ⟨next, continues_of_finishing (fun t member d other => ?_) continues, quiescent⟩
  have involved := (Finset.mem_filter.mp member).2
  by_cases here : (states c).pc t = .idle
  · -- The thread holds a guard, and it is not in the middle of another drop.
    have holds : (states c).HoldsGuard t := by
      by_contra free
      exact involved ⟨here, free⟩
    have outside := placed.holders_outside c d t holds
    have dropped := dropped d t
    cases there : (states d).pc t <;> simp_all [Pc.outside, dropRank]
  · exact placed.one_place c d t other.symm here

/-- The drops of write locks that are under way can end everywhere. -/
theorem continues_to_all_dropped (reachable : (nonNested kind Thread w).Reachable states) :
    ∃ last, (finishingAll kind Thread w).Continues states last ∧
      (nonNested kind Thread w).Reachable last ∧ Dropped last := by
  obtain ⟨used, unused⟩ := exists_used reachable
  have each : ∀ states (c : Index), (nonNested kind Thread w).Reachable states → ∃ next,
      (finishingAll kind Thread w).Continues states (Function.update states c next) ∧
        (∀ t, dropRank (next.pc t) = 0) ∧
        (nonNested kind Thread w).Reachable (Function.update states c next) := by
    intro states c reachable
    obtain ⟨next, continues, dropped⟩ := continues_to_dropped_at reachable c
    exact ⟨next, continues, dropped, continues.of_restrict.reachable reachable⟩
  obtain ⟨last, continues, reached, dropped, others⟩ :=
    System.continues_each each used states reachable
  refine ⟨last, continues, reached, fun c => ?_⟩
  by_cases member : c ∈ used
  · exact dropped c member
  · rw [others c member, unused c member]
    exact fun _ => rfl

/-- No deadlock without nested calls, for any number of containers of any kinds
and any threads: from every reachable state the calls already started and the
drops of the guards can be scheduled so that every call returns, every guard is
released, every mutex is free, every flag is down and every counter is zero. -/
theorem containers_come_to_rest {Index Thread : Type} [DecidableEq Index] [DecidableEq Thread]
    {w : Nat} (kind : Index → Kind) {states : Index → State Thread w}
    (reachable : (nonNested kind Thread w).Reachable states) :
    ∃ last, (finishingAll kind Thread w).Continues states last ∧ ∀ c, (last c).Quiescent := by
  obtain ⟨middle, before, reached, dropped⟩ := continues_to_all_dropped reachable
  obtain ⟨used, unused⟩ := exists_used reached
  have each : ∀ states (c : Index),
      (nonNested kind Thread w).Reachable states ∧ Dropped states → ∃ next,
      (finishingAll kind Thread w).Continues states (Function.update states c next) ∧
        next.Quiescent ∧ (nonNested kind Thread w).Reachable (Function.update states c next) ∧
        Dropped (Function.update states c next) := by
    rintro states c ⟨reachable, dropped⟩
    obtain ⟨next, continues, quiescent⟩ := continues_to_quiescent_at reachable dropped c
    refine ⟨next, continues, quiescent, continues.of_restrict.reachable reachable, fun d t => ?_⟩
    by_cases same : d = c
    · subst same
      rw [Function.update_self, quiescent.returned]
      rfl
    · rw [Function.update_of_ne same]
      exact dropped d t
  obtain ⟨last, after, -, quiescent, others⟩ :=
    System.continues_each each used middle ⟨reached, dropped⟩
  refine ⟨last, before.trans after, fun c => ?_⟩
  by_cases member : c ∈ used
  · exact quiescent c member
  · rw [others c member, unused c member]
    exact .new

/-- A vector and a map. On the vector one thread holds a guard, one is about to scan
again in its `push`, and one has just seen the flag in its `len`; the last has read the
map before. -/
theorem started_push_comes_to_rest : ∃ states : Bool → State (Fin 3) 64,
    (states false).readGuards = [⟨0, .value, 0, 2⟩] ∧
      (states false).pc 0 = .scanned ⟨1, .push⟩ false ∧
      (states false).pc 1 = .backOff ⟨2, .len⟩ 1 ∧ (states true).slots 1 = some 0 ∧
      ∃ last, (finishingAll (bif · then .hashMap else .vec) (Fin 3) 64).Continues states last ∧
        ∀ c, (last c).Quiescent := by
  let kind : Bool → Kind := (bif · then .hashMap else .vec)
  obtain ⟨states, executed, met⟩ := (Option.any_eq_true _ _).mp
    (show (System.execute (System.guarded (System.familyStep fun c => State.step (kind c))
      fun states action => AtOnePlace states action ∧ NonNested states action)
      (fun _ => .new (Fin 3) 64)
      ([(true, .read 1 .len)] ++ List.replicate 6 (true, .step 1) ++ [(true, .leaveRead 1 none),
        (false, .read 2 .get)] ++ List.replicate 6 (false, .step 2) ++
        [(false, .leaveRead 2 (some .value)), (false, .write 0 .push), (false, .step 0),
          (false, .step 0), (false, .read 1 .len)] ++ List.replicate 6 (false, .step 1) ++
        [(false, .step 0), (false, .step 0)])).any (fun states =>
        decide ((states false).readGuards = [⟨0, .value, 0, 2⟩] ∧
          (states false).pc 0 = .scanned ⟨1, .push⟩ false ∧
          (states false).pc 1 = .backOff ⟨2, .len⟩ 1 ∧ (states true).slots 1 = some 0)) = true by
      decide +kernel)
  obtain ⟨guards, writes, reads, read⟩ := of_decide_eq_true met
  have reachable : (nonNested kind (Fin 3) 64).Reachable states := by
    refine System.Reachable.mono ?_ ?_ (System.reachable_of_execute_family executed)
    · exact fun _ start => start
    · rintro states action next ⟨⟨atOnePlace, nonNested⟩, moved⟩
      exact ⟨nonNested, atOnePlace, moved⟩
  exact ⟨states, guards, writes, reads, read, containers_come_to_rest kind reachable⟩

end DarkStd.Sync
