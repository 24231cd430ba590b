import DarkStd.Sync.Moves

/-!
# The registry and its lock

Every position of the registry belongs to exactly one thread, the one whose
`SLOTS` points there, and the registry mutex is held exactly at the points of
the code between its lock and its release. The first is what lets a writer's
scan stand for all threads; the second is what keeps the registry still while
it scans.
-/

namespace DarkStd.Sync

open DarkStd.Semantics

namespace Pc

/-- The counter `begin_read` has looked up, from its registration on. -/
@[grind] def pointer : Pc → Option Nat
  | .release _ count | .add _ count | .load _ count | .backOff _ count
  | .reading _ count => some count
  | _ => none

/-- The lookup in `SLOTS` has failed and nothing has been pushed yet. -/
@[grind] def unregistered : Pc → Bool
  | .register _ | .push _ => true
  | _ => false

/-- Between `registry.lock()` and the drop of what it returned. -/
@[grind] def ownsRegistry : Pc → Bool
  | .push _ | .release _ _ | .scan _ _ | .scanned _ _ => true
  | _ => false

end Pc

namespace State

variable {Thread : Type} {w : Nat}

/-- The position a thread remembers is its own, and every position is remembered. -/
structure Registered (s : State Thread w) : Prop where
  slot_lt : ∀ t count, s.slots t = some count → count < s.registry.length
  slot_injective : ∀ t u count, s.slots t = some count → s.slots u = some count → t = u
  slot_surjective : ∀ count < s.registry.length, ∃ t, s.slots t = some count
  pointer_slot : ∀ t count, (s.pc t).pointer = some count → s.slots t = some count
  unregistered_slot : ∀ t, (s.pc t).unregistered = true → s.slots t = none
  lock_iff : ∀ t, s.registryLock = some t ↔ (s.pc t).ownsRegistry = true

/-- A new container has no counter and no thread remembers one. -/
theorem Registered.new : (State.new Thread w).Registered where
  slot_lt := by simp [State.new]
  slot_injective := by simp [State.new]
  slot_surjective := by simp [State.new]
  pointer_slot := by simp [State.new, Pc.pointer]
  unregistered_slot := by simp [State.new, Pc.unregistered]
  lock_iff := by simp [State.new, Pc.ownsRegistry]

variable [DecidableEq Thread]
variable {kind : Kind} {s next : State Thread w} {action : Action Thread}

/-- Only the push of a first read changes `SLOTS` or the length of the registry. -/
theorem Moves.slots_eq (move : Moves kind s action next) :
    (next.slots = s.slots ∧ next.registry.length = s.registry.length) ∨
      ∃ t call, action = .step t ∧ s.pc t = .push call ∧
        (∀ u, next.slots u = if u = t then some s.registry.length else s.slots u) ∧
        next.registry.length = s.registry.length + 1 := by
  cases move with
  | @push t call here =>
      exact .inr ⟨t, call, rfl, here, fun u => Function.update_apply .., by simp⟩
  | _ => exact .inl ⟨rfl, by simp⟩

/-- `SLOTS` forgets nothing. -/
theorem Moves.slots_stay (move : Moves kind s action next) (registered : s.Registered)
    {t : Thread} {count : Nat} (slot : s.slots t = some count) : next.slots t = some count := by
  rcases move.slots_eq with ⟨same, -⟩ | ⟨pusher, call, -, here, slots, -⟩
  · rw [same]
    exact slot
  · have missing := registered.unregistered_slot pusher (by rw [here]; rfl)
    have other : t ≠ pusher := fun same => by simp [← same, slot] at missing
    rw [slots, if_neg other, slot]

namespace Registered

variable (registered : s.Registered)
include registered

/-- The one position that is new is that of the counter just pushed. -/
theorem slot_lt_preserved (move : Moves kind s action next) (t : Thread) (count : Nat)
    (slot : next.slots t = some count) : count < next.registry.length := by
  rcases move.slots_eq with ⟨slots, length⟩ | ⟨pusher, call, -, -, slots, length⟩
  · rw [length]
    exact registered.slot_lt t count (slots ▸ slot)
  · have old := registered.slot_lt t count
    grind -ring -linarith

/-- Nobody remembers the position of a counter before it is pushed. -/
theorem slot_injective_preserved (move : Moves kind s action next) (t u : Thread) (count : Nat)
    (left : next.slots t = some count) (right : next.slots u = some count) : t = u := by
  rcases move.slots_eq with ⟨slots, -⟩ | ⟨pusher, call, -, -, slots, -⟩
  · rw [slots] at left right
    exact registered.slot_injective t u count left right
  · -- The new position is the old length, which nobody remembers yet.
    have old := registered.slot_injective t u count
    have below := registered.slot_lt
    grind -ring -linarith

/-- The counter just pushed is remembered by the thread that pushed it. -/
theorem slot_surjective_preserved (move : Moves kind s action next) (count : Nat)
    (below : count < next.registry.length) : ∃ t, next.slots t = some count := by
  rcases move.slots_eq with ⟨slots, length⟩ | ⟨pusher, call, -, here, slots, length⟩
  · rw [slots]
    exact registered.slot_surjective count (length ▸ below)
  · by_cases last : count = s.registry.length
    · exact ⟨pusher, by rw [slots, if_pos rfl, last]⟩
    · obtain ⟨t, slot⟩ := registered.slot_surjective count (by omega)
      have missing := registered.unregistered_slot pusher (by rw [here]; rfl)
      have different : t ≠ pusher := fun same => by simp [same, missing] at slot
      exact ⟨t, by rw [slots, if_neg different, slot]⟩

/-- A call points where its thread remembers, since `SLOTS` forgets nothing. -/
theorem pointer_slot_preserved (move : Moves kind s action next) (t : Thread) (count : Nat)
    (pointer : (next.pc t).pointer = some count) : next.slots t = some count := by
  have old := registered.pointer_slot t
  cases move with
  | push here =>
      have missing := registered.unregistered_slot
      grind -ring -linarith [Function.update_apply]
  | _ => grind -ring -linarith

/-- A thread that is about to push has nothing to remember: no other thread pushes for it. -/
theorem unregistered_slot_preserved (move : Moves kind s action next) (t : Thread)
    (unregistered : (next.pc t).unregistered = true) : next.slots t = none := by
  have old := registered.unregistered_slot t
  cases move with
  | push here =>
      -- Two threads are not both about to push: the lock is held by one of them.
      have lock := registered.lock_iff
      grind -ring -linarith [Function.update_apply]
  | _ => grind -ring -linarith

/-- The owner of the registry lock is the thread between `lock` and drop. -/
theorem lock_iff_preserved (move : Moves kind s action next) (t : Thread) :
    next.registryLock = some t ↔ (next.pc t).ownsRegistry = true := by
  have old := registered.lock_iff
  cases move <;> grind -ring -linarith

/-- Every step keeps positions and threads in step. -/
theorem preserved (move : Moves kind s action next) : next.Registered where
  slot_lt := registered.slot_lt_preserved move
  slot_injective := registered.slot_injective_preserved move
  slot_surjective := registered.slot_surjective_preserved move
  pointer_slot := registered.pointer_slot_preserved move
  unregistered_slot := registered.unregistered_slot_preserved move
  lock_iff := registered.lock_iff_preserved move

end Registered

/-- Positions and threads agree in every run. -/
theorem registered_of_reachable (reachable : (container kind Thread w).Reachable s) :
    s.Registered :=
  reachable.invariant Registered (fun _ start => start ▸ .new)
    fun _ _ _ _ registered move => registered.preserved (moves_of_step move)

end State

end DarkStd.Sync
