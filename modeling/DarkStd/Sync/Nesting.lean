import Mathlib.Order.Preorder.Finite
import DarkStd.Sync.Containers

/-!
# Calls while holding guards of other containers

The documented rule keeps a guard and a call apart. It is enough that threads
nest the containers in one order: a method is called only on a container above
all those the thread holds a guard of. Then the containers can be brought to
rest one after the other, the upper ones first, since who holds a guard of a
container waits at most for one above it. Without an order threads may wait for
each other's guards, and then none of them ever returns.
-/

namespace DarkStd.Sync

open DarkStd.Semantics State

section Runs

variable {Index Thread : Type} {w : Nat}

/-- A method is called only on a container above all those of which the thread
holds a guard or an iterator. -/
def Ascends [LT Index] (states : Index → State Thread w) : Index × Action Thread → Prop
  | (c, .read t _) | (c, .write t _) => ∀ d, (states d).HoldsGuard t → d < c
  | _ => True

instance [Fintype Index] [DecidableEq Thread] [LT Index] [DecidableLT Index]
    (states : Index → State Thread w) : ∀ action, Decidable (Ascends states action)
  | (c, .read t _) | (c, .write t _) =>
      inferInstanceAs (Decidable (∀ d, (states d).HoldsGuard t → d < c))
  | (_, .step _) | (_, .leaveRead _ _) | (_, .leaveWrite _ _) | (_, .dropRead _ _)
  | (_, .dropWrite _ _) | (_, .send _ _) => inferInstanceAs (Decidable True)

variable [DecidableEq Index] [DecidableEq Thread] [LT Index] (kind : Index → Kind)

/-- The runs in which every thread nests the containers in the order of their
indices. -/
def ascending (Thread : Type) [DecidableEq Thread] (w : Nat) :
    System (Index → State Thread w) (Index × Action Thread) :=
  (containers kind Thread w).restrict Ascends

/-- Steps of calls already started and drops of guards, in such a run. -/
def finishingAscending (Thread : Type) [DecidableEq Thread] (w : Nat) :
    System (Index → State Thread w) (Index × Action Thread) :=
  (ascending kind Thread w).restrict fun _ action => action.2.finishes

end Runs

variable {Index Thread : Type} {w : Nat} {kind : Index → Kind}
variable {states : Index → State Thread w}

/-- Where threads are, and how they nest. -/
structure Stacked [LT Index] (states : Index → State Thread w) : Prop where
  one_place : ∀ c d t, c ≠ d → (states c).pc t ≠ .idle → (states d).pc t = .idle
  holders_above : ∀ c d t, (states c).HoldsGuard t → ((states d).pc t).outside = false → c < d

theorem Stacked.new [LT Index] : Stacked fun _ : Index => State.new Thread w where
  one_place _ _ _ _ busy := absurd rfl busy
  holders_above _ _ _ _ inside := by cases inside

section Preserved

variable [DecidableEq Thread]

/-- A step of one container moves no other thread anywhere. -/
theorem State.Moves.update_pc_of_ne [DecidableEq Index] {index : Index} {action : Action Thread}
    {moved : State Thread w} (move : Moves (kind index) (states index) action moved) (c : Index)
    {t : Thread} (other : t ≠ action.thread) :
    (Function.update states index moved c).pc t = (states c).pc t := by
  by_cases here : c = index
  · subst here
    rw [Function.update_self]
    exact move.pc_of_ne other
  · rw [Function.update_of_ne here]

/-- A step of one container gives guards to no other thread. -/
theorem State.Moves.update_holdsGuard_of_ne [DecidableEq Index] {index : Index}
    {action : Action Thread} {moved : State Thread w}
    (move : Moves (kind index) (states index) action moved) {c : Index} {t : Thread}
    (other : t ≠ action.thread) (holds : (Function.update states index moved c).HoldsGuard t) :
    (states c).HoldsGuard t := by
  by_cases here : c = index
  · subst here
    rw [Function.update_self] at holds
    exact move.holdsGuard_of_ne other holds
  · rwa [Function.update_of_ne here] at holds

variable [LT Index]

namespace Stacked

variable (stacked : Stacked states)
include stacked

/-- The thread of a step is in no other container. -/
theorem idle_elsewhere {index : Index} {action : Action Thread} {moved : State Thread w}
    (move : Moves (kind index) (states index) action moved)
    (atOnePlace : AtOnePlace states (index, action)) {c : Index} (other : c ≠ index) :
    (states c).pc action.thread = .idle := by
  cases move with
  | read | write | dropRead | dropWrite | send => exact atOnePlace c
  | _ =>
      refine stacked.one_place index c _ other.symm ?_
      simp_all

variable [DecidableEq Index]

theorem one_place_preserved {index : Index} {action : Action Thread} {moved : State Thread w}
    (move : Moves (kind index) (states index) action moved)
    (atOnePlace : AtOnePlace states (index, action)) (c d : Index) (t : Thread)
    (different : c ≠ d) (busy : (Function.update states index moved c).pc t ≠ .idle) :
    (Function.update states index moved d).pc t = .idle := by
  by_cases actor : t = action.thread
  · subst actor
    by_cases here : c = index
    · subst here
      rw [Function.update_of_ne different.symm]
      exact stacked.idle_elsewhere move atOnePlace different.symm
    · rw [Function.update_of_ne here] at busy
      exact absurd (stacked.idle_elsewhere move atOnePlace here) busy
  · rw [move.update_pc_of_ne _ actor] at busy ⊢
    exact stacked.one_place c d t different busy

theorem holders_above_preserved {index : Index} {action : Action Thread}
    {moved : State Thread w} (move : Moves (kind index) (states index) action moved)
    (atOnePlace : AtOnePlace states (index, action)) (ascends : Ascends states (index, action))
    (c d : Index) (t : Thread) (holds : (Function.update states index moved c).HoldsGuard t)
    (inside : ((Function.update states index moved d).pc t).outside = false) : c < d := by
  by_cases actor : t = action.thread
  · subst actor
    by_cases there : d = index
    · subst there
      rw [Function.update_self] at inside
      obtain ⟨⟨readGuards, writeGuards⟩, before⟩ := move.inside_before inside
      -- The step has given its thread no guard.
      have held : (states c).HoldsGuard action.thread := by
        by_cases here : c = d
        · subst here
          rwa [Function.update_self, HoldsGuard, HoldsReadGuard, readGuards, writeGuards] at holds
        · rwa [Function.update_of_ne here] at holds
      rcases before with before | ⟨t, method, rfl⟩ | ⟨t, method, rfl⟩
      · exact stacked.holders_above c d _ held before
      · exact ascends c held
      · exact ascends c held
    · rw [Function.update_of_ne there, stacked.idle_elsewhere move atOnePlace there] at inside
      cases inside
  · rw [move.update_pc_of_ne _ actor] at inside
    exact stacked.holders_above c d t (move.update_holdsGuard_of_ne actor holds) inside

theorem preserved {index : Index} {action : Action Thread} {moved : State Thread w}
    (move : Moves (kind index) (states index) action moved)
    (atOnePlace : AtOnePlace states (index, action)) (ascends : Ascends states (index, action)) :
    Stacked (Function.update states index moved) where
  one_place := stacked.one_place_preserved move atOnePlace
  holders_above := stacked.holders_above_preserved move atOnePlace ascends

end Stacked

end Preserved

section Rest

variable [DecidableEq Thread] [DecidableEq Index]

theorem stacked_of_reachable [LT Index] (reachable : (ascending kind Thread w).Reachable states) :
    Stacked states := by
  refine reachable.invariant Stacked ?_ ?_
  · intro states start
    rw [funext start]
    exact .new
  · rintro states ⟨index, action⟩ _ - stacked ⟨ascends, atOnePlace, moved, stepped, rfl⟩
    exact stacked.preserved (moves_of_step stepped) atOnePlace ascends

theorem component_of_ascending [LT Index] (reachable : (ascending kind Thread w).Reachable states)
    (c : Index) : (container (kind c) Thread w).Reachable (states c) :=
  reachable.of_restrict.of_restrict.component c

/-- Only finitely many containers have been used. -/
theorem exists_used_of_containers (reachable : (containers kind Thread w).Reachable states) :
    ∃ indices : Finset Index, ∀ c, c ∉ indices → states c = .new Thread w := by
  refine reachable.invariant (fun states : Index → State Thread w =>
    ∃ indices : Finset Index, ∀ c, c ∉ indices → states c = .new Thread w) ?_ ?_
  · exact fun states start => ⟨∅, fun c _ => start c⟩
  · rintro states ⟨index, action⟩ _ - ⟨indices, unused⟩ ⟨-, moved, -, rfl⟩
    refine ⟨insert index indices, fun c missing => ?_⟩
    rw [Finset.mem_insert, not_or] at missing
    rw [Function.update_of_ne missing.1]
    exact unused c missing.2

/-- What is finished without calls is finished in any order. -/
theorem continues_of_finishingAll [LT Index] {last : Index → State Thread w}
    (continues : (finishingAll kind Thread w).Continues states last) :
    (finishingAscending kind Thread w).Continues states last := by
  obtain ⟨actions, steps⟩ := continues
  refine ⟨actions, steps.mono ?_⟩
  rintro states ⟨c, action⟩ next ⟨finishes, -, moved⟩
  refine ⟨finishes, ?_, moved⟩
  cases action <;> trivial

/-- The drops of write locks that are under way on one container can end. -/
theorem Stacked.continues_to_dropped [LT Index] (stacked : Stacked states) (c : Index)
    (reachable : (container (kind c) Thread w).Reachable (states c)) : ∃ next,
      (finishingAscending kind Thread w).Continues states (Function.update states c next) ∧
        ∀ t, dropRank (next.pc t) = 0 := by
  classical
  obtain ⟨threads, covered⟩ := exists_involved reachable
  have idle : dropRank .idle = 0 := rfl
  have dropping : ∀ t, dropRank ((states c).pc t) ≠ 0 →
      t ∈ threads.filter fun t => dropRank ((states c).pc t) ≠ 0 := by
    intro t busy
    refine Finset.mem_filter.mpr ⟨?_, busy⟩
    by_contra missing
    exact busy (by rw [(covered t missing).1, idle])
  obtain ⟨next, continues, dropped⟩ := State.continues_to_dropped dropping
  refine ⟨next, continues_of_finishingAll
    (continues_of_finishing (fun t member d other => ?_) continues), dropped⟩
  refine stacked.one_place c d t other.symm fun here => (Finset.mem_filter.mp member).2 ?_
  rw [here, idle]

/-- A container whose holders are in no call can be brought to rest. -/
theorem Stacked.continues_to_quiescent [LT Index] (stacked : Stacked states)
    (dropped : Dropped states) {c : Index}
    (reachable : (container (kind c) Thread w).Reachable (states c))
    (outside : ∀ t, (states c).HoldsGuard t → ∀ d, ((states d).pc t).outside = true) : ∃ next,
      (finishingAscending kind Thread w).Continues states (Function.update states c next) ∧
        next.Quiescent := by
  classical
  obtain ⟨threads, covered⟩ := exists_involved reachable
  have settling : (states c).Settling (kind c)
      (threads.filter fun t => ¬ (states c).Uninvolved t) := by
    refine ⟨reachable, fun t holds => outside t holds c, fun t missing => ?_⟩
    by_contra involved
    refine missing (Finset.mem_filter.mpr ⟨?_, involved⟩)
    by_contra free
    exact involved (covered t free)
  obtain ⟨next, continues, quiescent⟩ := settling.continues_to_quiescent
  refine ⟨next, continues_of_finishingAll
    (continues_of_finishing (fun t member d other => ?_) continues), quiescent⟩
  have involved := (Finset.mem_filter.mp member).2
  by_cases here : (states c).pc t = .idle
  · -- The thread holds a guard, and it is not in the middle of another drop.
    have holds : (states c).HoldsGuard t := by
      by_contra free
      exact involved ⟨here, free⟩
    have free := outside t holds d
    have dropped := dropped d t
    cases there : (states d).pc t <;> simp_all [Pc.outside, dropRank]
  · exact stacked.one_place c d t other.symm here

/-- The drops of write locks that are under way can end everywhere. -/
theorem continues_to_dropped_ascending [LT Index]
    (reachable : (ascending kind Thread w).Reachable states) :
    ∃ last, (finishingAscending kind Thread w).Continues states last ∧ Dropped last := by
  obtain ⟨used, unused⟩ := exists_used_of_containers reachable.of_restrict
  have each : ∀ states (c : Index), (ascending kind Thread w).Reachable states → ∃ next,
      (finishingAscending kind Thread w).Continues states (Function.update states c next) ∧
        (∀ t, dropRank (next.pc t) = 0) ∧
        (ascending kind Thread w).Reachable (Function.update states c next) := by
    intro states c reachable
    obtain ⟨next, continues, dropped⟩ := (stacked_of_reachable reachable).continues_to_dropped c
      (component_of_ascending reachable c)
    exact ⟨next, continues, dropped, continues.of_restrict.reachable reachable⟩
  obtain ⟨last, continues, -, dropped, others⟩ :=
    System.continues_each each used states reachable
  refine ⟨last, continues, fun c => ?_⟩
  by_cases member : c ∈ used
  · exact dropped c member
  · rw [others c member, unused c member]
    exact fun _ => rfl

variable [Preorder Index]

omit [DecidableEq Thread] in
/-- A container above which all others are at rest has no holder in a call. -/
theorem Stacked.outside_of_maximal (stacked : Stacked states) {indices : Finset Index}
    (rest : ∀ c, c ∉ indices → (states c).Quiescent) {c : Index} (top : Maximal (· ∈ indices) c)
    (t : Thread) (holds : (states c).HoldsGuard t) (d : Index) :
    ((states d).pc t).outside = true := by
  by_contra inside
  have inside : ((states d).pc t).outside = false := by simpa using inside
  have above := stacked.holders_above c d t holds inside
  have member : d ∈ indices := by
    by_contra outside
    rw [(rest d outside).returned t] at inside
    cases inside
  exact above.not_ge (top.2 member above.le)

/-- The containers that are not yet at rest can be brought there, the upper ones
first. -/
theorem continues_to_rest (indices : Finset Index) {states : Index → State Thread w}
    (reachable : (ascending kind Thread w).Reachable states) (dropped : Dropped states)
    (rest : ∀ c, c ∉ indices → (states c).Quiescent) :
    ∃ last, (finishingAscending kind Thread w).Continues states last ∧
      ∀ c, (last c).Quiescent := by
  induction indices using Finset.strongInduction generalizing states with
  | H indices inductionHypothesis =>
    rcases indices.eq_empty_or_nonempty with rfl | nonempty
    · exact ⟨states, .refl _, fun c => rest c (Finset.notMem_empty c)⟩
    · obtain ⟨c, top⟩ := indices.exists_maximal nonempty
      have stacked := stacked_of_reachable reachable
      obtain ⟨next, continues, quiescent⟩ := stacked.continues_to_quiescent dropped
        (component_of_ascending reachable c) (stacked.outside_of_maximal rest top)
      have fewer : ∀ d, d ∉ indices.erase c → (Function.update states c next d).Quiescent := by
        intro d outside
        by_cases same : d = c
        · rw [same, Function.update_self]
          exact quiescent
        · rw [Function.update_of_ne same]
          exact rest d fun member => outside (Finset.mem_erase.mpr ⟨same, member⟩)
      have stillDropped : Dropped (Function.update states c next) := by
        intro d t
        by_cases same : d = c
        · rw [same, Function.update_self, quiescent.returned]
          rfl
        · rw [Function.update_of_ne same]
          exact dropped d t
      obtain ⟨last, after, all⟩ := inductionHypothesis (indices.erase c)
        (Finset.erase_ssubset top.1) (continues.of_restrict.reachable reachable) stillDropped fewer
      exact ⟨last, continues.trans after, all⟩

/-- From every state of a run that nests in one order all containers can be
brought to rest. -/
theorem ascending_comes_to_rest (reachable : (ascending kind Thread w).Reachable states) :
    ∃ last, (finishingAscending kind Thread w).Continues states last ∧
      ∀ c, (last c).Quiescent := by
  obtain ⟨middle, before, dropped⟩ := continues_to_dropped_ascending reachable
  have reached := before.of_restrict.reachable reachable
  obtain ⟨used, unused⟩ := exists_used_of_containers reached.of_restrict
  obtain ⟨last, after, quiescent⟩ := continues_to_rest used reached dropped fun c outside => by
    rw [unused c outside]
    exact .new
  exact ⟨last, before.trans after, quiescent⟩

end Rest

section Circles

/-- Inside `begin_write`. -/
def Pc.enteringWrite : Pc → Bool
  | .acquire _ | .raise _ | .scanLock _ | .scan _ _ | .scanned _ _ => true
  | _ => false

/-- The one thread cannot return from its call before the other has dropped a
guard that it cannot hand on: a write waits for a read guard, and any call for a
write guard. -/
inductive WaitsFor (kind : Index → Kind) (states : Index → State Thread w) (t u : Thread) : Prop
    where
  | drain {c guard} (inside : ((states c).pc t).enteringWrite = true)
      (live : guard ∈ (states c).readGuards) (held : guard.holder = u)
      (bound : guard.kind = .iter → (kind c).iterIsSend = false)
  | acquire {c call guard} (here : (states c).pc t = .acquire call)
      (live : guard ∈ (states c).writeGuards) (held : guard.holder = u)
  | enter {c guard} (inside : ((states c).pc t).entering = true)
      (live : guard ∈ (states c).writeGuards) (held : guard.holder = u)

/-- Each of the threads waits for one of them, or for itself. -/
def CircularWait (kind : Index → Kind) (states : Index → State Thread w) (threads : Set Thread) :
    Prop :=
  ∀ t ∈ threads, ∃ u ∈ threads, WaitsFor kind states t u

theorem WaitsFor.busy {t u : Thread} (waits : WaitsFor kind states t u) :
    ∃ c, (states c).pc t ≠ .idle := by
  cases waits with
  | @drain c _ inside =>
      refine ⟨c, fun idle => ?_⟩
      rw [idle] at inside
      cases inside
  | @acquire c _ _ here => exact ⟨c, by simp [here]⟩
  | @enter c _ inside =>
      refine ⟨c, fun idle => ?_⟩
      rw [idle] at inside
      cases inside

namespace State

variable [DecidableEq Thread] {kind : Kind} {s next : State Thread w} {action : Action Thread}

/-- A guard that cannot be handed on stays until its holder drops it. -/
theorem Moves.readGuard_stays (move : Moves kind s action next) {guard : ReadGuard Thread}
    (live : guard ∈ s.readGuards) (bound : guard.kind = .iter → kind.iterIsSend = false)
    (kept : ∀ id, action ≠ .dropRead guard.holder id) : guard ∈ next.readGuards := by
  cases move with
  | returnRead => exact List.mem_cons_of_mem _ live
  | @dropRead t dropped idle liveDropped held =>
      have other : guard ≠ dropped := by
        rintro rfl
        exact kept guard.id (held ▸ rfl)
      exact (List.mem_erase_of_ne other).mpr live
  | @send receiver sent idle liveSent iterator sendable =>
      have other : guard ≠ sent := by
        rintro rfl
        cases (bound iterator).symm.trans sendable
      exact List.mem_cons_of_mem _ ((List.mem_erase_of_ne other).mpr live)
  | _ => exact live

theorem Moves.writeGuard_stays (move : Moves kind s action next) {guard : WriteGuard Thread}
    (live : guard ∈ s.writeGuards) (kept : ∀ id, action ≠ .dropWrite guard.holder id) :
    guard ∈ next.writeGuards := by
  cases move with
  | returnWrite => exact List.mem_cons_of_mem _ live
  | @dropWrite t dropped idle liveDropped held =>
      have other : guard ≠ dropped := by
        rintro rfl
        exact kept guard.id (held ▸ rfl)
      exact (List.mem_erase_of_ne other).mpr live
  | _ => exact live

/-- No `begin_write` returns while a read section is open. -/
theorem Moves.enteringWrite_of_open (move : Moves kind s action next) (drained : s.Drained)
    (isOpen : s.ReadSectionOpen) {t : Thread} (inside : (s.pc t).enteringWrite = true) :
    (next.pc t).enteringWrite = true := by
  cases move with
  | @enter u call here => exact absurd isOpen (drained.drained_closed u (by rw [here]; rfl))
  | dropRead | send => exact inside
  | _ =>
      rw [goto_pc]
      split <;> simp_all [Pc.enteringWrite]

/-- The owner of a write guard keeps the mutex. -/
theorem Moves.acquire_stays (move : Moves kind s action next) (locked : s.Locked)
    {guard : WriteGuard Thread} (live : guard ∈ s.writeGuards) {t : Thread} {call : WriteCall}
    (here : s.pc t = .acquire call) : next.pc t = .acquire call := by
  cases move with
  | acquire here' free => exact absurd live (locked.guards_eq_nil free ▸ List.not_mem_nil)
  | dropRead | send => exact here
  | _ =>
      rw [goto_pc]
      split <;> simp_all

end State

variable [DecidableEq Thread] [DecidableEq Index]

/-- Nobody who is in a call of his own drops a guard. -/
theorem WaitsFor.preserved {index : Index} {action : Action Thread} {moved : State Thread w}
    {t u : Thread} (waits : WaitsFor kind states t u)
    (move : Moves (kind index) (states index) action moved)
    (atOnePlace : AtOnePlace states (index, action)) (sound : ∀ c, (states c).Sound)
    (busy : ∃ d, (states d).pc u ≠ .idle) :
    WaitsFor kind (Function.update states index moved) t u := by
  obtain ⟨d, busy⟩ := busy
  have keptRead (id : Nat) : action ≠ .dropRead u id := by
    rintro rfl
    exact busy (atOnePlace d)
  have keptWrite (id : Nat) : action ≠ .dropWrite u id := by
    rintro rfl
    exact busy (atOnePlace d)
  cases waits with
  | @drain c guard inside live held bound =>
      subst held
      by_cases here : c = index
      · subst here
        have isOpen : (states c).ReadSectionOpen := .inl (List.ne_nil_of_mem live)
        refine .drain (c := c) ?_ ?_ rfl bound
        · rw [Function.update_self]
          exact move.enteringWrite_of_open (sound c).drained isOpen inside
        · rw [Function.update_self]
          exact move.readGuard_stays live bound keptRead
      · refine .drain (c := c) ?_ ?_ rfl bound
        · rwa [Function.update_of_ne here]
        · rwa [Function.update_of_ne here]
  | @acquire c call guard inside live held =>
      subst held
      by_cases here : c = index
      · subst here
        have waits := move.acquire_stays (sound c).locked live inside
        have lives := move.writeGuard_stays live keptWrite
        rw [← Function.update_self c moved states] at waits lives
        exact .acquire waits lives rfl
      · rw [← Function.update_of_ne here moved states] at inside live
        exact .acquire inside live rfl
  | @enter c guard inside live held =>
      subst held
      by_cases here : c = index
      · subst here
        have up := (sound c).locked.flag_guard (List.ne_nil_of_mem live)
        refine .enter (c := c) ?_ ?_ rfl
        · rw [Function.update_self]
          exact move.entering_of_up up inside
        · rw [Function.update_self]
          exact move.writeGuard_stays live keptWrite
      · refine .enter (c := c) ?_ ?_ rfl
        · rwa [Function.update_of_ne here]
        · rwa [Function.update_of_ne here]

/-- A circle stays one, whatever happens. -/
theorem CircularWait.of_continues {threads : Set Thread} {last : Index → State Thread w}
    (circle : CircularWait kind states threads)
    (reachable : (containers kind Thread w).Reachable states)
    (continues : (containers kind Thread w).Continues states last) :
    CircularWait kind last threads := by
  have kept : (containers kind Thread w).Reachable last ∧ CircularWait kind last threads := by
    refine continues.preserves (fun states : Index → State Thread w =>
      (containers kind Thread w).Reachable states ∧ CircularWait kind states threads) ?_
      ⟨reachable, circle⟩
    rintro states ⟨index, action⟩ next ⟨reachable, circle⟩ ⟨atOnePlace, moved, stepped, rfl⟩
    refine ⟨reachable.step ⟨atOnePlace, moved, stepped, rfl⟩, fun t member => ?_⟩
    obtain ⟨u, other, waits⟩ := circle t member
    obtain ⟨_, -, further⟩ := circle u other
    exact ⟨u, other, waits.preserved (moves_of_step stepped) atOnePlace
      (fun c => sound_of_reachable (reachable.of_restrict.component c)) further.busy⟩
  exact kept.2

end Circles

/-- A thread's first `dirty_ref` of a container, from the call to the return. -/
def firstRef {Index Thread : Type} (t : Thread) (c : Index) : List (Index × Action Thread) :=
  [(c, .read t .dirtyRef)] ++ List.replicate 6 (c, .step t) ++
    [(c, .leaveRead t (some .container))]

/-- Deadlock freedom of ordered nesting, for any number of containers of any kinds
and any threads: if methods are called only on containers above all those the
thread holds a guard of, then from every reachable state the calls already started
and the drops of the guards can be scheduled so that every container comes to rest,
and no threads wait for each other's guards in a circle. -/
theorem ordered_containers_come_to_rest {Index Thread : Type} [DecidableEq Index]
    [DecidableEq Thread] [Preorder Index] {w : Nat} (kind : Index → Kind)
    {states : Index → State Thread w} (reachable : (ascending kind Thread w).Reachable states) :
    (∃ last, (finishingAscending kind Thread w).Continues states last ∧
      ∀ c, (last c).Quiescent) ∧
    ∀ threads : Set Thread, CircularWait kind states threads → threads = ∅ := by
  obtain ⟨last, continues, quiescent⟩ := ascending_comes_to_rest reachable
  refine ⟨⟨last, continues, quiescent⟩, fun threads circle => ?_⟩
  refine Set.eq_empty_of_forall_notMem fun t member => ?_
  have still := circle.of_continues reachable.of_restrict continues.of_restrict.of_restrict
  obtain ⟨u, -, waits⟩ := still t member
  obtain ⟨c, busy⟩ := waits.busy
  exact busy ((quiescent c).returned t)

/-- A `push` on the upper of two vectors while a guard of the lower one is held. -/
theorem nested_push_comes_to_rest : ∃ states : Bool → State (Fin 2) 64,
    (states false).HoldsGuard 0 ∧ (states true).pc 0 = .acquire ⟨0, .push⟩ ∧
      ∃ last, (finishingAscending (fun _ => .vec) (Fin 2) 64).Continues states last ∧
        ∀ c, (last c).Quiescent := by
  obtain ⟨states, executed, met⟩ := (Option.any_eq_true _ _).mp
    (show (System.execute (System.guarded (System.familyStep fun _ : Bool => State.step .vec)
      fun states action => AtOnePlace states action ∧ Ascends states action)
      (fun _ => .new (Fin 2) 64) (firstRef 0 false ++ [(true, .write 0 .push)])).any (fun states =>
        decide ((states false).HoldsGuard 0 ∧ (states true).pc 0 = .acquire ⟨0, .push⟩)) = true by
      decide +kernel)
  obtain ⟨holds, here⟩ := of_decide_eq_true met
  have reachable : (ascending (fun _ : Bool => .vec) (Fin 2) 64).Reachable states := by
    refine System.Reachable.mono ?_ ?_ (System.reachable_of_execute_family executed)
    · exact fun _ start => start
    · rintro states action next ⟨⟨atOnePlace, ascends⟩, moved⟩
      exact ⟨ascends, atOnePlace, moved⟩
  exact ⟨states, holds, here, (ordered_containers_come_to_rest _ reachable).1⟩

/-- The documented deadlocks, and all others of their kind: threads that wait for
each other's guards in a circle, on however many containers, do so in every
continuation, so none of them ever returns from its call. -/
theorem circular_wait_hangs {Index Thread : Type} [DecidableEq Index] [DecidableEq Thread]
    {w : Nat} (kind : Index → Kind) {states last : Index → State Thread w}
    {threads : Set Thread} (reachable : (containers kind Thread w).Reachable states)
    (circle : CircularWait kind states threads)
    (continues : (containers kind Thread w).Continues states last) :
    CircularWait kind last threads ∧ ∀ t ∈ threads, ∃ c, (last c).pc t ≠ .idle := by
  have still := circle.of_continues reachable continues
  refine ⟨still, fun t member => ?_⟩
  obtain ⟨u, -, waits⟩ := still t member
  exact waits.busy

/-- Two threads hold a `dirty_ref` of a vector each and call `push` on the other. -/
theorem crossed_pushes_hang : ∃ states : Bool → State (Fin 2) 64,
    ∀ last, (containers (fun _ => .vec) (Fin 2) 64).Continues states last →
      ∀ t, ∃ c, (last c).pc t ≠ .idle := by
  obtain ⟨states, executed, met⟩ := (Option.any_eq_true _ _).mp
    (show (System.execute (System.guarded (System.familyStep fun _ : Bool => State.step .vec)
      AtOnePlace) (fun _ => .new (Fin 2) 64)
      (firstRef 0 false ++ firstRef 1 true ++
        [(true, .write 0 .push), (false, .write 1 .push)])).any (fun states =>
        decide (((states true).pc 0).enteringWrite = true ∧
          ((states false).pc 1).enteringWrite = true ∧
          (states false).readGuards = [⟨0, .container, 0, 0⟩] ∧
          (states true).readGuards = [⟨0, .container, 0, 1⟩])) = true by decide +kernel)
  obtain ⟨first, second, left, right⟩ := of_decide_eq_true met
  have reachable : (containers (fun _ : Bool => .vec) (Fin 2) 64).Reachable states :=
    System.reachable_of_execute_family executed
  have circle : CircularWait (fun _ => .vec) states Set.univ := by
    intro t _
    match t with
    | 0 => exact ⟨1, trivial, .drain first (right ▸ List.mem_singleton_self _) rfl (by rintro ⟨⟩)⟩
    | 1 => exact ⟨0, trivial, .drain second (left ▸ List.mem_singleton_self _) rfl (by rintro ⟨⟩)⟩
  refine ⟨states, fun last continues t => ?_⟩
  exact (circular_wait_hangs _ reachable circle continues).2 t trivial

end DarkStd.Sync
