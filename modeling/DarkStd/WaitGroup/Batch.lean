import DarkStd.WaitGroup.Release

/-!
# A batch of clones

Handles are cloned, one after the other, and dropped in any order, and nobody
waits. Then `total` counts the clones, as far as it does not wrap.
-/

namespace DarkStd.WaitGroup

open DarkStd.Semantics State

/-- Clones and drops only. -/
@[simp] def Action.batches {Thread : Type} : Action Thread → Prop
  | .clone _ _ | .step _ | .drop _ => True
  | .add _ _ _ | .wait _ _ | .cancel _ => False

/-- The runs in which handles are cloned and dropped. -/
def cloning (overflowChecks : Bool) (Thread : Type) [DecidableEq Thread] :
    System (State Thread) (Action Thread) :=
  (waitGroup overflowChecks Thread).restrict fun _ action => action.batches

/-- The runs in which handles are cloned one after the other, and dropped. -/
def batches (overflowChecks : Bool) (Thread : Type) [DecidableEq Thread] :
    System (State Thread) (Action Thread) :=
  (separate overflowChecks Thread).restrict fun _ action => action.batches

/-- At rest inside a clone. -/
@[grind] def Pc.cloning : Pc → Prop
  | .idle | .build _ => True
  | .fetchOr _ v cloning | .store _ v cloning _ => v = 1 ∧ cloning = true
  | _ => False

namespace State

variable {Thread : Type}

/-- Nobody has waited since. -/
structure Unwaited (before s : State Thread) : Prop where
  sound : s.Sound
  received : s.received = before.received
  returned : s.returned = before.returned
  cloning : ∀ t, (s.pc t).cloning

/-- The clones made so far are what `total` counts. -/
structure Cloned (before s : State Thread) : Prop extends Unwaited before s where
  serial : s.Serial
  total_eq : (∀ t handle, s.pc t ≠ .build handle) → s.total + 1 = BitVec.ofNat 64 s.created
  building_eq : ∀ t handle, s.pc t = .build handle → s.total = BitVec.ofNat 64 s.created

/-- Between two rounds: only the original handle is left, and no call runs. -/
structure Resting (s : State Thread) (clones : Nat) : Prop where
  sound : s.Sound
  idle : ∀ t, s.pc t = .idle
  handles : s.handles = [0]
  created : s.created = clones + 1
  total : s.total = BitVec.ofNat 64 clones

theorem Resting.new : (State.new Thread).Resting 0 where
  sound := .new
  idle _ := rfl
  handles := rfl
  created := rfl
  total := rfl

theorem Resting.cloned {s : State Thread} {clones : Nat} (resting : s.Resting clones) :
    Cloned s s where
  sound := resting.sound
  received := rfl
  returned := rfl
  cloning t := by rw [resting.idle]; trivial
  serial := .of_idle resting.idle
  total_eq _ := by
    rw [resting.total, resting.created, BitVec.ofNat_add]
    rfl
  building_eq t handle here := by simp [resting.idle] at here

variable [DecidableEq Thread]
variable {overflowChecks : Bool} {before s next : State Thread} {action : Action Thread}

theorem Unwaited.preserved (unwaited : Unwaited before s) (batch : action.batches)
    (move : Moves overflowChecks s action next) : Unwaited before next := by
  have sound := unwaited.sound.preserved move
  have received := unwaited.received
  have returned := unwaited.returned
  have cloning := unwaited.cloning
  simp only [Action.batches] at batch
  cases move with
  | @receive t handle current queue here | @leave t handle seen here =>
      have clone := cloning t
      simp [here, Pc.cloning] at clone
  | _ => exact ⟨sound, received, returned, by grind⟩

namespace Cloned

variable (cloned : Cloned before s)
include cloned

theorem total_eq_preserved (move : Moves overflowChecks s action next)
    (idle : ∀ t handle, next.pc t ≠ .build handle) :
    next.total + 1 = BitVec.ofNat 64 next.created := by
  have old := cloned.total_eq
  have building := cloned.building_eq
  have unique := cloned.serial.adder_unique
  have one := cloned.cloning
  cases move with
  | @build t handle here =>
      rw [finish_total, finish_created, building t handle here, BitVec.ofNat_add]
      rfl
  | @store t handle v current here =>
      have clone := one t
      simp [here, Pc.cloning] at clone
  | @storeClone t handle v current here => simpa using idle t handle
  | drop => exact old idle
  | _ =>
      refine old fun t handle here => ?_
      have moved := idle t handle
      grind -ring -linarith

theorem building_eq_preserved (move : Moves overflowChecks s action next) (t : Thread)
    (handle : Nat) (here : next.pc t = .build handle) :
    next.total = BitVec.ofNat 64 next.created := by
  have building := cloned.building_eq t handle
  have unique := cloned.serial.adder_unique
  cases move with
  | @storeClone u handle' v current here' =>
      have one := cloned.cloning u
      rw [here'] at one
      have before := cloned.total_eq fun t handle building => by
        have same := unique t u (by rw [building]; rfl) (by rw [here']; rfl)
        simp [same, here'] at building
      rw [goto_total, goto_created, one.1, cloned.serial.current_eq u _ _ _ _ here']
      exact before
  | store here' | build here' =>
      have same := unique t _ (by grind -ring -linarith) (by rw [here']; rfl)
      grind -ring -linarith
  | _ =>
      refine building ?_
      grind -ring -linarith

theorem preserved (move : Moves overflowChecks s action next) (alone : s.Alone action)
    (batch : action.batches) : Cloned before next where
  toUnwaited := cloned.toUnwaited.preserved batch move
  serial := cloned.serial.preserved move alone
  total_eq := cloned.total_eq_preserved move
  building_eq := cloned.building_eq_preserved move

end Cloned

theorem Cloned.of_continues (cloned : Cloned before s)
    (continues : (batches overflowChecks Thread).Continues s next) : Cloned before next := by
  refine continues.preserves (Cloned before) ?_ cloned
  rintro s action next cloned ⟨batch, alone, stepped⟩
  exact cloned.preserved (moves_of_step stepped) alone batch

omit [DecidableEq Thread] in
/-- Between calls `total` is the number of clones. -/
theorem Cloned.total_of_idle (cloned : Cloned before s) (idle : ∀ t, s.pc t = .idle)
    {clones : Nat} (created : s.created = clones + 1) : s.total = BitVec.ofNat 64 clones := by
  have total := cloned.total_eq fun t handle here => by simp [idle] at here
  rw [created, BitVec.ofNat_add] at total
  exact add_right_cancel total

/-- The clones of a batch add up. -/
theorem Resting.batch {clones more : Nat} (resting : s.Resting clones)
    (continues : (batches overflowChecks Thread).Continues s next)
    (idle : ∀ t, next.pc t = .idle) (handles : next.handles = [0])
    (created : next.created = s.created + more) :
    next.Resting (clones + more) ∧ next.received = s.received := by
  have cloned := resting.cloned.of_continues continues
  have count : next.created = clones + more + 1 := by
    rw [created, resting.created]
    omega
  exact ⟨⟨cloned.sound, idle, handles, count, cloned.total_of_idle idle count⟩, cloned.received⟩

theorem continues_of_moves (move : Moves overflowChecks s action next)
    (batch : action.batches) (alone : s.Alone action) :
    (batches overflowChecks Thread).Continues s next :=
  .single ⟨batch, alone, step_of_moves move⟩

/-- One more clone, made and dropped. -/
theorem Resting.clone {clones : Nat} (resting : s.Resting clones) (t : Thread)
    (fits : overflowChecks = true → clones + 1 < 2 ^ 64) :
    ∃ next, (batches overflowChecks Thread).Continues s next ∧ next.Resting (clones + 1) := by
  have below : overflowChecks = true → s.total.toNat + (1 : BitVec 64).toNat < 2 ^ 64 := by
    intro checked
    have bound := fits checked
    rwa [resting.total, BitVec.toNat_ofNat, Nat.mod_eq_of_lt (by omega)]
  have alone : s.Alone (.clone t 0) := fun u => by rw [resting.idle]; rfl
  have alive : 0 ∈ s.handles := by rw [resting.handles]; exact List.mem_cons_self
  have called : (batches overflowChecks Thread).Continues s _ :=
    continues_of_moves (.clone (resting.idle t) alive) trivial alone
  have read := called.trans
    (continues_of_moves (.fetchOr (goto_pc_self ..)) trivial trivial)
  have stored := read.trans
    (continues_of_moves (.storeClone (goto_pc_self ..) below) trivial trivial)
  have built := stored.trans (continues_of_moves (.build (goto_pc_self ..)) trivial trivial)
  have dropped := built.trans
    (continues_of_moves (.drop List.mem_cons_self (by
      simp [Free, resting.sound.calls_eq_nil resting.idle])) trivial trivial)
  have rested := resting.batch dropped (fun u => ?_) ?_ rfl
  · exact ⟨_, dropped, rested.1⟩
  · by_cases same : u = t <;> simp [same, resting.idle]
  · simp [resting.handles]

/-- A batch of any size, made and dropped. -/
theorem Resting.exists_batch {clones : Nat} (resting : s.Resting clones) (t : Thread) (more : Nat)
    (fits : overflowChecks = true → clones + more < 2 ^ 64) :
    ∃ next, (batches overflowChecks Thread).Continues s next ∧
      next.Resting (clones + more) := by
  induction more with
  | zero => exact ⟨s, .refl s, resting⟩
  | succ more inductionHypothesis =>
      obtain ⟨middle, before, rested⟩ := inductionHypothesis fun checked => by
        have bound := fits checked
        omega
      obtain ⟨next, after, resting⟩ := rested.clone t fits
      exact ⟨next, before.trans after, resting⟩

end State

end DarkStd.WaitGroup
