import DarkStd.Sync.Exclusion

/-!
# What iterators yield

`next` of every iterator returns references of the lifetime of the container's
borrow, not of the iterator's own, so an item may be used after its iterator
was dropped. An item is a token: `next` makes it, and it is gone when its user
is done with it, whatever became of the iterator. The slot or the lock that
protects it is released by the drop of the iterator alone.

Items come from `next` only. The write iterators also have a `DerefMut` to the
iterator of the collection, which a caller can swap out and keep after the drop;
that is left out.
-/

namespace DarkStd.Sync

open DarkStd.Semantics

/-- A reference that `next` has returned and that may still be used: `&'a V`
from a read iterator, `&'a mut V` from a write iterator. -/
structure Item where
  iterator : Nat
  mutable : Bool
deriving DecidableEq, Repr

/-- A container and the items of its iterators. -/
structure Lending (Thread : Type) (w : Nat) where
  sync : State Thread w
  items : List Item

/-- What may happen to a container whose iterators are used. -/
inductive LendingAction (Thread : Type) where
  /-- Any step of the container itself. -/
  | sync (action : Action Thread)
  /-- `next` of a read iterator returns an item. -/
  | next (thread : Thread) (id : Nat)
  /-- `next` of a write iterator returns an item. -/
  | nextMut (thread : Thread) (id : Nat)
  /-- An item is used for the last time. -/
  | release (item : Item)
deriving DecidableEq, Repr

namespace Lending

variable {Thread : Type} {w : Nat}

/-- A container just constructed. -/
def new (Thread : Type) (w : Nat) : Lending Thread w := ⟨.new Thread w, []⟩

/-- The iterator that yielded the item still exists. -/
def IteratorAlive (s : Lending Thread w) (item : Item) : Prop :=
  if item.mutable then ∃ guard ∈ s.sync.writeGuards, guard.id = item.iterator
  else ∃ guard ∈ s.sync.readGuards, guard.id = item.iterator

/-- Nobody writes while the item of a read iterator is used. -/
def SharedProtected (s : Lending Thread w) (item : Item) : Prop :=
  item.mutable = false → ∀ t, ¬ s.sync.InWriteSection t

/-- While the item of a write iterator is used nobody reads, and the only
writer is the iterator that yielded it. -/
def MutableProtected (s : Lending Thread w) (item : Item) : Prop :=
  item.mutable = true → ¬ s.sync.ReadSectionOpen ∧
    (∀ guard ∈ s.sync.writeGuards, guard.id = item.iterator) ∧
    ∀ t, (s.sync.pc t).inWriteSection = true → s.sync.pc t = .lower item.iterator

/-- An iterator is dropped only when none of its items is used any more. -/
def DropsLast (s : Lending Thread w) : LendingAction Thread → Prop
  | .sync (.dropRead _ id) => ∀ item ∈ s.items, item.mutable = false → item.iterator ≠ id
  | .sync (.dropWrite _ id) => ∀ item ∈ s.items, item.mutable = true → item.iterator ≠ id
  | _ => True

/-- A read iterator that exists keeps writers out. -/
theorem sharedProtected_of_alive {s : Lending Thread w} {item : Item}
    (drained : s.sync.Drained) (alive : s.IteratorAlive item) : s.SharedProtected item := by
  intro shared t inside
  simp only [IteratorAlive, shared, Bool.false_eq_true, if_false] at alive
  obtain ⟨guard, live, -⟩ := alive
  exact drained.closed inside (.inl (List.ne_nil_of_mem live))

/-- A write iterator that exists is alone with the content. -/
theorem mutableProtected_of_alive {s : Lending Thread w} {item : Item}
    (locked : s.sync.Locked) (drained : s.sync.Drained) (alive : s.IteratorAlive item) :
    s.MutableProtected item := by
  intro unique
  simp only [IteratorAlive, unique, if_true] at alive
  obtain ⟨guard, live, mine⟩ := alive
  have only := locked.guards_eq_singleton live
  refine ⟨drained.guarded_closed (List.ne_nil_of_mem live), ?_, fun t inside => ?_⟩
  · rw [only]
    simpa using mine
  · have owns : (s.sync.pc t).ownsWrite = true := by
      cases here : s.sync.pc t <;> simp_all [Pc.inWriteSection, Pc.ownsWrite]
    exact absurd (locked.guards_exclude t owns) (List.ne_nil_of_mem live)

instance (s : Lending Thread w) (action : LendingAction Thread) :
    Decidable (s.DropsLast action) :=
  match action with
  | .sync (.dropRead _ id) =>
      inferInstanceAs (Decidable (∀ item ∈ s.items, item.mutable = false → item.iterator ≠ id))
  | .sync (.dropWrite _ id) =>
      inferInstanceAs (Decidable (∀ item ∈ s.items, item.mutable = true → item.iterator ≠ id))
  | .sync (.read ..) | .sync (.write ..) | .sync (.step ..) | .sync (.leaveRead ..)
  | .sync (.leaveWrite ..) | .sync (.send ..) | .next .. | .nextMut .. | .release .. =>
      inferInstanceAs (Decidable True)

variable [DecidableEq Thread]

/-- One action on a container of the given kind and its items. -/
def step (kind : Kind) (s : Lending Thread w) :
    LendingAction Thread → Option (Lending Thread w)
  | .sync action => (s.sync.step kind action).map fun next => { s with sync := next }
  | .next t id =>
      if s.sync.pc t = .idle ∧
          ∃ guard ∈ s.sync.readGuards, guard.id = id ∧ guard.holder = t ∧ guard.kind = .iter then
        some { s with items := ⟨id, false⟩ :: s.items }
      else none
  | .nextMut t id =>
      if s.sync.pc t = .idle ∧
          ∃ guard ∈ s.sync.writeGuards, guard.id = id ∧ guard.holder = t ∧ guard.kind = .iter then
        some { s with items := ⟨id, true⟩ :: s.items }
      else none
  | .release item => if item ∈ s.items then some { s with items := s.items.erase item } else none

end Lending

/-- A container of the given kind whose iterators' items are used. -/
def lending (kind : Kind) (Thread : Type) [DecidableEq Thread] (w : Nat) :
    System (Lending Thread w) (LendingAction Thread) :=
  .ofFunction (.new Thread w) (Lending.step kind)

namespace Lending

variable {Thread : Type} [DecidableEq Thread] {w : Nat}
variable {kind : Kind} {s next : Lending Thread w} {action : LendingAction Thread} {item : Item}

/-- The container below is one that runs by itself. -/
theorem sync_reachable (reachable : (lending kind Thread w).Reachable s) :
    (container kind Thread w).Reachable s.sync := by
  refine reachable.invariant (fun s => (container kind Thread w).Reachable s.sync)
    (fun _ start => start ▸ .initial rfl) ?_
  intro s action next _ below moved
  cases action with
  | sync action =>
      obtain ⟨sync, stepped, rfl⟩ := Option.map_eq_some_iff.mp moved
      have move : (container kind Thread w).Step s.sync action sync := stepped
      exact .step below move
  | next t id =>
      obtain ⟨-, ⟨⟩⟩ := Option.ite_none_right_eq_some.mp moved
      exact below
  | nextMut t id =>
      obtain ⟨-, ⟨⟩⟩ := Option.ite_none_right_eq_some.mp moved
      exact below
  | release item =>
      obtain ⟨-, ⟨⟩⟩ := Option.ite_none_right_eq_some.mp moved
      exact below

/-- Only its own drop ends an iterator. -/
theorem iteratorAlive_preserved {sync : State Thread w} {step : Action Thread}
    (move : State.Moves kind s.sync step sync)
    (spared : (∀ t, step = .dropRead t item.iterator → item.mutable = true) ∧
      ∀ t, step = .dropWrite t item.iterator → item.mutable = false)
    (alive : s.IteratorAlive item) : IteratorAlive ⟨sync, s.items⟩ item := by
  unfold IteratorAlive at alive ⊢
  cases unique : item.mutable with
  | true =>
      simp only [unique, if_true] at alive ⊢
      obtain ⟨guard, live, mine⟩ := alive
      cases move with
      | returnWrite here => exact ⟨guard, List.mem_cons_of_mem _ live, mine⟩
      | @dropWrite t dropped idle liveDropped =>
          have other : guard ≠ dropped := by
            rintro rfl
            simp [spared.2 t (by rw [mine])] at unique
          exact ⟨guard, (List.mem_erase_of_ne other).mpr live, mine⟩
      | _ => exact ⟨guard, live, mine⟩
  | false =>
      simp only [unique, Bool.false_eq_true, if_false] at alive ⊢
      obtain ⟨guard, live, mine⟩ := alive
      cases move with
      | returnRead here => exact ⟨guard, List.mem_cons_of_mem _ live, mine⟩
      | @dropRead t dropped idle liveDropped =>
          have other : guard ≠ dropped := by
            rintro rfl
            simp [spared.1 t (by rw [mine])] at unique
          exact ⟨guard, (List.mem_erase_of_ne other).mpr live, mine⟩
      | @send receiver sent idle liveSent =>
          -- A sent iterator keeps its id.
          by_cases same : guard = sent
          · subst same
            exact ⟨_, List.mem_cons_self, mine⟩
          · exact ⟨guard, List.mem_cons_of_mem _ ((List.mem_erase_of_ne same).mpr live), mine⟩
      | _ => exact ⟨guard, live, mine⟩

/-- In a run that drops iterators last, every item still has its iterator. -/
theorem iteratorAlive_of_reachable
    (reachable : ((lending kind Thread w).restrict DropsLast).Reachable s) :
    ∀ item ∈ s.items, s.IteratorAlive item := by
  refine reachable.invariant (fun s => ∀ item ∈ s.items, s.IteratorAlive item) ?_ ?_
  · rintro _ rfl item live
    cases live
  · rintro s action next - alive ⟨last, moved⟩ item live
    cases action with
    | sync action =>
        obtain ⟨sync, stepped, rfl⟩ := Option.map_eq_some_iff.mp moved
        refine iteratorAlive_preserved (State.moves_of_step stepped) ⟨?_, ?_⟩ (alive item live)
        · rintro t rfl
          by_contra shared
          exact last item live (by simpa using shared) rfl
        · rintro t rfl
          by_contra unique
          exact last item live (by simpa using unique) rfl
    | next t id =>
        obtain ⟨⟨-, guard, liveGuard, mine, -⟩, ⟨⟩⟩ := Option.ite_none_right_eq_some.mp moved
        rcases List.mem_cons.mp live with rfl | live
        · exact ⟨guard, liveGuard, mine⟩
        · exact alive item live
    | nextMut t id =>
        obtain ⟨⟨-, guard, liveGuard, mine, -⟩, ⟨⟩⟩ := Option.ite_none_right_eq_some.mp moved
        rcases List.mem_cons.mp live with rfl | live
        · exact ⟨guard, liveGuard, mine⟩
        · exact alive item live
    | release released =>
        obtain ⟨-, ⟨⟩⟩ := Option.ite_none_right_eq_some.mp moved
        exact alive item (List.mem_of_mem_erase live)

end Lending

open Lending

/-- An item is protected as long as its iterator exists, in every run; so in a
run that drops every iterator after the last use of its items, every item is
protected for as long as it is used. -/
theorem items_protected (kind : Kind) {Thread : Type} [DecidableEq Thread] {w : Nat} :
    (∀ s : Lending Thread w, (lending kind Thread w).Reachable s →
      ∀ item ∈ s.items, s.IteratorAlive item → s.SharedProtected item ∧ s.MutableProtected item) ∧
    ∀ s : Lending Thread w, ((lending kind Thread w).restrict DropsLast).Reachable s →
      ∀ item ∈ s.items, s.SharedProtected item ∧ s.MutableProtected item := by
  have alive_protects (s : Lending Thread w) (reachable : (lending kind Thread w).Reachable s)
      (item : Item) (alive : s.IteratorAlive item) :
      s.SharedProtected item ∧ s.MutableProtected item := by
    have below := sync_reachable reachable
    have drained := State.drained_of_reachable below
    exact ⟨sharedProtected_of_alive drained alive,
      mutableProtected_of_alive (State.locked_of_reachable below) drained alive⟩
  refine ⟨fun s reachable item _ => alive_protects s reachable item, ?_⟩
  intro s last item live
  exact alive_protects s last.of_restrict item (iteratorAlive_of_reachable last item live)

/-- An item of `iter`, used before the iterator is dropped. -/
theorem item_in_use_protected : ∃ s : Lending (Fin 1) 64,
    s.items = [⟨1, false⟩] ∧ s.SharedProtected ⟨1, false⟩ := by
  obtain ⟨s, reachable, items⟩ := System.exists_reachable_of_execute_guarded
    (fun s : Lending (Fin 1) 64 => decide (s.items = [⟨1, false⟩]))
    (show (System.execute (System.guarded (step .vec) DropsLast) (.new (Fin 1) 64)
      ([.write 0 .push, .step 0, .step 0, .step 0, .step 0, .step 0, .leaveWrite 0 none,
          .step 0, .step 0, .read 0 .iter, .step 0, .step 0, .step 0, .step 0, .step 0, .step 0,
          .leaveRead 0 (some .iter)].map .sync ++ [.next 0 1])).any _ = true by decide +kernel)
  have items := of_decide_eq_true items
  have live : ⟨1, false⟩ ∈ s.items := items ▸ List.mem_singleton_self _
  exact ⟨s, items, ((items_protected .vec).2 s reachable _ live).1⟩

/-- One thread calls `push`, takes an item from `iter`, drops the iterator and
calls `clear`; or takes an item from `iter_mut`, drops the iterator and calls
`iter_mut` again. -/
theorem items_unprotected :
    (¬ ∀ s : Lending (Fin 1) 64, (lending .vec (Fin 1) 64).Reachable s →
      ∀ item ∈ s.items, s.SharedProtected item) ∧
    ¬ ∀ s : Lending (Fin 1) 64, (lending .vec (Fin 1) 64).Reachable s →
      ∀ item ∈ s.items, s.MutableProtected item := by
  constructor
  · intro holds
    obtain ⟨s, reachable, met⟩ := System.exists_reachable_of_execute
      (fun s : Lending (Fin 1) 64 =>
        decide (⟨1, false⟩ ∈ s.items ∧ s.sync.pc 0 = .writing ⟨2, .clear⟩))
      (show (System.execute (step .vec) (.new (Fin 1) 64)
        ([.write 0 .push, .step 0, .step 0, .step 0, .step 0, .step 0, .leaveWrite 0 none,
            .step 0, .step 0, .read 0 .iter, .step 0, .step 0, .step 0, .step 0, .step 0, .step 0,
            .leaveRead 0 (some .iter)].map .sync ++ [.next 0 1] ++
          [.dropRead 0 1, .write 0 .clear, .step 0, .step 0, .step 0, .step 0, .step 0,
            .step 0].map .sync)).any _ = true by decide +kernel)
    obtain ⟨live, clearing⟩ := of_decide_eq_true met
    exact holds s reachable ⟨1, false⟩ live rfl 0 (.inl (by rw [clearing]; rfl))
  · intro holds
    obtain ⟨s, reachable, met⟩ := System.exists_reachable_of_execute
      (fun s : Lending (Fin 1) 64 =>
        decide (⟨1, true⟩ ∈ s.items ∧ s.sync.pc 0 = .writing ⟨2, .iterMut⟩))
      (show (System.execute (step .vec) (.new (Fin 1) 64)
        ([.write 0 .push, .step 0, .step 0, .step 0, .step 0, .step 0, .leaveWrite 0 none,
            .step 0, .step 0, .write 0 .iterMut, .step 0, .step 0, .step 0, .step 0, .step 0,
            .leaveWrite 0 (some .iter)].map .sync ++ [.nextMut 0 1] ++
          [.dropWrite 0 1, .step 0, .step 0, .write 0 .iterMut, .step 0, .step 0, .step 0,
            .step 0, .step 0].map .sync)).any _ = true by decide +kernel)
    obtain ⟨live, again⟩ := of_decide_eq_true met
    obtain ⟨-, -, alone⟩ := holds s reachable ⟨1, true⟩ live rfl
    cases (alone 0 (by rw [again]; rfl)).symm.trans again

end DarkStd.Sync
