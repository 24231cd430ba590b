import DarkStd.Sync.Equality

/-!
# The balance of the reader counters

A guard does not remember the thread that created it, only its counter, and an
iterator of a vector may be dropped by another thread. What ties a guard to its
thread is the call that returned it: calls are numbered in the order in which a
run makes them. A counter is the number of guards created by its thread, and of
the thread's own open call, so no `fetch_sub` finds it at zero.
-/

namespace DarkStd.Sync

open DarkStd.Semantics

/-- The thread that calls a method. -/
def Action.caller {Thread : Type} : Action Thread → Option Thread
  | .read t _ | .write t _ => some t
  | .step _ | .leaveRead .. | .leaveWrite .. | .dropRead .. | .dropWrite .. | .send .. => none

/-- The callers of a run; the position in the list is the id of the call. -/
def callers {Thread : Type} (actions : List (Action Thread)) : List Thread :=
  actions.filterMap Action.caller

/-- Between the `fetch_add` of `begin_read` and the `fetch_sub` of its back-off,
or the load that makes it unnecessary. -/
def Pc.pending : Pc → Bool
  | .load _ _ | .backOff _ _ => true
  | _ => false

theorem Pc.pins_toNat (pc : Pc) : pc.pins.toNat = pc.isReading.toNat + pc.pending.toNat := by
  cases pc <;> rfl

namespace State

variable {Thread : Type} [DecidableEq Thread] {w : Nat}

/-- The live guards and iterators that calls of a thread have returned. -/
def created (s : State Thread w) (callers : List Thread) (t : Thread) : Nat :=
  s.readGuards.countP fun guard => callers[guard.id]? = some t

/-- The counter that an action decrements. -/
def subtracts (s : State Thread w) : Action Thread → Option Nat
  | .step t =>
      match s.pc t with
      | .backOff _ count => some count
      | _ => none
  | .leaveRead t none =>
      match s.pc t with
      | .reading _ count => some count
      | _ => none
  | .dropRead t id =>
      (s.readGuards.find? fun guard => guard.id = id ∧ guard.holder = t).map (·.count)
  | .leaveRead _ (some _) | .read .. | .write .. | .leaveWrite .. | .dropWrite .. | .send .. => none

/-- The accounting of the reader counters after a run with the given callers. -/
structure Balances (kind : Kind) (callers : List Thread) (s : State Thread w) : Prop where
  counts : ∀ count counter, s.registry[count]? = some counter → ∃ t, s.slots t = some count ∧
    counter.toNat =
      s.created callers t + (s.pc t).isReading.toNat + (s.pc t).pending.toNat
  subtracts_nonzero : ∀ action next count, s.step kind action = some next →
    s.subtracts action = some count → next.registry = s.registry.modify count (· - 1) ∧
      ∃ counter, s.registry[count]? = some counter ∧ counter ≠ 0
  zero : s.readGuards = [] → (∀ t, (s.pc t).inRead = false) → ∀ counter ∈ s.registry, counter = 0

/-- The callers of a run are the threads of its calls and of its guards. -/
structure Attributed (callers : List Thread) (s : State Thread w) : Prop where
  length_eq : callers.length = s.nextCall
  call : ∀ t id, (s.pc t).call = some id → callers[id]? = some t
  guard : ∀ guard ∈ s.readGuards,
    ∃ t, callers[guard.id]? = some t ∧ s.slots t = some guard.count

omit [DecidableEq Thread] in
theorem Attributed.new : (State.new Thread w).Attributed [] where
  length_eq := rfl
  call := by simp [State.new, Pc.call]
  guard := by simp [State.new]

variable {kind : Kind} {s next : State Thread w} {action : Action Thread}
variable {callers : List Thread}

namespace Attributed

variable (attributed : s.Attributed callers)
include attributed

theorem length_eq_preserved (move : Moves kind s action next) :
    (callers ++ action.caller.toList).length = next.nextCall := by
  have old := attributed.length_eq
  cases move <;> simp [Action.caller, old]

theorem call_preserved (move : Moves kind s action next) (t : Thread) (id : Nat)
    (call : (next.pc t).call = some id) : (callers ++ action.caller.toList)[id]? = some t := by
  have known (before : (s.pc t).call = some id) :
      (callers ++ action.caller.toList)[id]? = some t := by
    have old := attributed.call t id before
    obtain ⟨below, -⟩ := List.getElem?_eq_some_iff.mp old
    rwa [List.getElem?_append_left below]
  cases move with
  | @read u method | @write u method =>
      by_cases actor : t = u
      · subst actor
        rw [goto_pc_self] at call
        obtain rfl := Option.some.inj call
        simp [Action.caller, ← attributed.length_eq]
      · rw [goto_pc_of_ne _ _ _ _ actor] at call
        exact known call
  | dropRead | send => exact known call
  | loadFalse here | enter here | rescan here | scanEnd here | scanZero here | scanNonzero here
  | slotFound here | slotMissing here | register here | push here | release here | add here
  | loadTrue here | backOff here | acquire here | raise here | scanLock here | lower here
  | unlock here | leaveRead here | returnRead here | leaveWrite here | returnWrite here
  | dropWrite here =>
      refine known ?_
      rw [goto_pc] at call
      split at call
      case isTrue same => simp_all [Pc.call]
      case isFalse => exact call

theorem guard_preserved (move : Moves kind s action next) (registered : s.Registered)
    (guard : ReadGuard Thread) (live : guard ∈ next.readGuards) :
    ∃ t, (callers ++ action.caller.toList)[guard.id]? = some t ∧
      next.slots t = some guard.count := by
  have known (old : ReadGuard Thread) (before : old ∈ s.readGuards) :
      ∃ t, (callers ++ action.caller.toList)[old.id]? = some t ∧
        next.slots t = some old.count := by
    obtain ⟨t, caller, slot⟩ := attributed.guard old before
    obtain ⟨below, -⟩ := List.getElem?_eq_some_iff.mp caller
    exact ⟨t, by rwa [List.getElem?_append_left below], move.slots_stay registered slot⟩
  cases move with
  | @returnRead t call count returned here =>
      rcases List.mem_cons.mp live with rfl | live
      · -- The call that returns the guard was the thread's own.
        have caller := attributed.call t call.id (by rw [here]; rfl)
        have slot := registered.pointer_slot t count (by rw [here]; rfl)
        exact ⟨t, by simpa [Action.caller] using caller, slot⟩
      · exact known guard live
  | dropRead => exact known guard (List.mem_of_mem_erase live)
  | @send receiver sent idle liveSent =>
      rcases List.mem_cons.mp live with rfl | live
      · exact known sent liveSent
      · exact known guard (List.mem_of_mem_erase live)
  | _ => exact known guard live

theorem preserved (move : Moves kind s action next) (registered : s.Registered) :
    next.Attributed (callers ++ action.caller.toList) where
  length_eq := attributed.length_eq_preserved move
  call := attributed.call_preserved move
  guard := attributed.guard_preserved move registered

/-- The guards a thread has created are those that point to its counter. -/
theorem created_eq (registered : s.Registered) {t : Thread} {count : Nat}
    (slot : s.slots t = some count) : s.created callers t = guardsOn s.readGuards count := by
  refine List.countP_congr fun guard live => ?_
  obtain ⟨u, caller, slot'⟩ := attributed.guard guard live
  rw [caller, decide_eq_true_iff, Option.some.injEq, beq_iff_eq]
  constructor
  · rintro rfl
    exact Option.some.inj (slot'.symm.trans slot)
  · rintro rfl
    exact registered.slot_injective u t guard.count slot' slot

end Attributed

theorem attributed_of_steps {actions : List (Action Thread)}
    (steps : (container kind Thread w).Steps (.new Thread w) actions s) :
    s.Attributed (Sync.callers actions) := by
  induction steps with
  | refl => exact .new
  | @step actions middle action next prior move inductionHypothesis =>
      have registered := registered_of_reachable (prior.reachable (.initial rfl))
      have called : Sync.callers (actions ++ [action]) =
          Sync.callers actions ++ action.caller.toList := by
        rw [Sync.callers, List.filterMap_append]
        cases caller : action.caller <;> simp [Sync.callers, caller]
      rw [called]
      exact inductionHypothesis.preserved (moves_of_step move) registered

omit [DecidableEq Thread] in
/-- The counter of an open section is not zero. -/
theorem Accounted.counter_ne_zero (accounted : s.Accounted) {t : Thread} {count : Nat}
    (slot : s.slots t = some count) (isOpen : s.sections t count ≠ 0) :
    ∃ counter, s.registry[count]? = some counter ∧ counter ≠ 0 := by
  obtain ⟨counter, loaded, number⟩ := accounted.toNat_counter slot
  refine ⟨counter, loaded, ?_⟩
  rintro rfl
  exact isOpen (by rw [← number, BitVec.ofNat_eq_ofNat, BitVec.toNat_zero])

/-- Whoever decrements a counter has an open section that it stands for. -/
theorem Sound.subtracts_nonzero (sound : s.Sound) (stepped : s.step kind action = some next)
    {count : Nat} (subtracts : s.subtracts action = some count) :
    next.registry = s.registry.modify count (· - 1) ∧
      ∃ counter, s.registry[count]? = some counter ∧ counter ≠ 0 := by
  obtain ⟨registered, accounted, -, -⟩ := sound
  have pinned {t : Thread} (pointer : (s.pc t).pointer = some count)
      (pins : (s.pc t).pins = true) : ∃ counter, s.registry[count]? = some counter ∧ counter ≠ 0 :=
    accounted.counter_ne_zero (registered.pointer_slot t count pointer) (by simp [sections, pins])
  cases action with
  | step t =>
      simp only [State.subtracts] at subtracts
      split at subtracts
      case h_1 call position here =>
        obtain rfl := Option.some.inj subtracts
        simp only [step, advance, here] at stepped
        cases stepped
        exact ⟨rfl, pinned (by rw [here]; rfl) (by rw [here]; rfl)⟩
      case h_2 => cases subtracts
  | leaveRead t returned =>
      cases returned with
      | some guard => cases subtracts
      | none =>
          simp only [State.subtracts] at subtracts
          split at subtracts
          case h_1 call position here =>
            obtain rfl := Option.some.inj subtracts
            simp only [step, here] at stepped
            obtain ⟨-, ⟨⟩⟩ := Option.ite_none_right_eq_some.mp stepped
            exact ⟨rfl, pinned (by rw [here]; rfl) (by rw [here]; rfl)⟩
          case h_2 => cases subtracts
  | dropRead t id =>
      obtain ⟨guard, found, rfl⟩ := Option.map_eq_some_iff.mp subtracts
      have live := List.mem_of_find?_eq_some found
      obtain ⟨u, slot⟩ := registered.slot_surjective guard.count (accounted.guard_lt guard live)
      simp only [step, found] at stepped
      obtain ⟨-, ⟨⟩⟩ := Option.ite_none_right_eq_some.mp stepped
      refine ⟨rfl, accounted.counter_ne_zero slot fun none => ?_⟩
      have guards : guardsOn s.readGuards guard.count = 0 := (Nat.add_eq_zero_iff.mp none).1
      exact guardsOn_eq_zero.mp guards guard live rfl
  | _ => cases subtracts

theorem balances_of_steps {actions : List (Action Thread)}
    (steps : (container kind Thread w).Steps (.new Thread w) actions s) :
    s.Balances kind (Sync.callers actions) := by
  have sound := sound_of_reachable (steps.reachable (.initial rfl))
  have attributed := attributed_of_steps steps
  refine ⟨fun count counter loaded => ?_, fun action next count stepped subtracts =>
    sound.subtracts_nonzero stepped subtracts, fun guards calls => ?_⟩
  · obtain ⟨below, -⟩ := List.getElem?_eq_some_iff.mp loaded
    obtain ⟨t, slot⟩ := sound.registered.slot_surjective count below
    obtain ⟨counter', loaded', number⟩ := sound.accounted.toNat_counter slot
    obtain rfl := Option.some.inj (loaded.symm.trans loaded')
    refine ⟨t, slot, ?_⟩
    rw [number, sections, attributed.created_eq sound.registered slot, Pc.pins_toNat, Nat.add_assoc]
  · refine counter_eq_zero sound.registered sound.accounted guards fun t => ?_
    have outside := calls t
    cases here : s.pc t <;> simp_all [Pc.inRead, Pc.pins]

end State

/-- The reader counters balance. In every run of a container of any kind, and of
any number of vectors that are also compared, every counter is the number of
the live guards and iterators created on its thread, wherever they are, and of
the thread's open read call, and one more while it is between the `fetch_add`
and the `fetch_sub` of a back-off; no `fetch_sub` finds a counter at zero; and
all are zero when no guard is alive and no read is running. -/
theorem reader_counters_balance {Thread : Type} [DecidableEq Thread] {w : Nat} :
    (∀ (kind : Kind) (actions : List (Action Thread)) (s : State Thread w),
      (container kind Thread w).Steps (.new Thread w) actions s →
        s.Balances kind (callers actions)) ∧
    ∀ (Index V : Type) [DecidableEq Index] (eq : V → V → Bool) (contents : Index → List V)
      (actions : List (VecAction Index Thread V)) (s : Vecs Index Thread V w),
      (vecs Thread w eq contents).Steps (.new Thread w contents) actions s →
        ∀ x, (s.stores x).Balances .vec (callers (actions.filterMap (VecAction.on x))) :=
  ⟨fun _ _ _ steps => State.balances_of_steps steps,
    fun _ _ _ _ _ _ _ steps x => State.balances_of_steps (Vecs.container_steps steps x)⟩

/-- An iterator of thread 0 that thread 1 holds, and the two guards of a vector
that is compared with itself. -/
theorem sent_iterator_balances :
    (∃ s : State (Fin 2) 64, s.readGuards = [⟨0, .iter, 0, 1⟩] ∧ s.registry = [1] ∧
      s.Balances .vec [0]) ∧
    ∃ s : Vecs (Fin 1) (Fin 2) Nat 64, (s.stores 0).registry = [2] ∧
      (s.stores 0).Balances .vec [0, 0] := by
  constructor
  · obtain ⟨s, steps, met⟩ := System.exists_steps_of_execute
      (fun s : State (Fin 2) 64 => decide (s.readGuards = [⟨0, .iter, 0, 1⟩] ∧ s.registry = [1]))
      (show (System.execute (State.step .vec) (.new (Fin 2) 64)
        ([.read 0 .iter] ++ List.replicate 6 (.step 0) ++
          [.leaveRead 0 (some .iter), .send 0 1])).any _ = true by decide +kernel)
    obtain ⟨guards, registry⟩ := of_decide_eq_true met
    exact ⟨s, guards, registry, reader_counters_balance.1 .vec _ s steps⟩
  · let step := System.guarded (Vecs.step (· == ·))
      fun (now : Vecs (Fin 1) (Fin 2) Nat 64) action => action.AtOnePlace now
    obtain ⟨s, ran, met⟩ := (Option.any_eq_true _ _).mp
      (show (System.execute step (.new (Fin 2) 64 fun _ => [7])
        ([.compare 0 0 0] ++ List.replicate 6 (.sync 0 (.step 0)) ++
          [.sync 0 (.leaveRead 0 (some .container)), .sync 0 (.read 0 .dirtyRef)] ++
          List.replicate 3 (.sync 0 (.step 0)) ++
          [.sync 0 (.leaveRead 0 (some .container))])).any
            (fun s => decide ((s.stores 0).registry = [2])) = true by decide +kernel)
    exact ⟨s, of_decide_eq_true met, reader_counters_balance.2 (Fin 1) Nat (· == ·) _ _ s
      (System.steps_of_execute_guarded ran) 0⟩

end DarkStd.Sync
