import DarkStd.WaitGroup.Moves

/-!
# When a wait returns

A wait leaves its loop when it has received as many messages as `total` says.
Every message is a dropped handle, and without overlapping or wrapping additions
`total` is at least the number of clones, so at that moment no handle but its
own is left. By the time the call returns there may be new ones: nothing keeps
another thread from cloning the waited handle in between.
-/

namespace DarkStd.WaitGroup

open DarkStd.Semantics

/-- A store that is about to happen does not wrap. -/
def Pc.Fits (overflowChecks : Bool) : Pc → Prop
  | .store _ v _ current => overflowChecks = false → current.toNat + v.toNat < 2 ^ 64
  | _ => True

instance (overflowChecks : Bool) (pc : Pc) : Decidable (pc.Fits overflowChecks) :=
  match pc with
  | .store _ v _ current =>
      inferInstanceAs (Decidable (overflowChecks = false → current.toNat + v.toNat < 2 ^ 64))
  | .idle | .fetchOr .. | .build .. | .load .. | .recv .. | .compare .. | .leave .. =>
      inferInstanceAs (Decidable True)

namespace State

variable {Thread : Type}

/-- No `add` or `clone` starts while another one runs. -/
def Alone (s : State Thread) : Action Thread → Prop
  | .add _ _ _ | .clone _ _ => ∀ u, (s.pc u).adding = false
  | _ => True

/-- No addition wraps; with overflow checks none can. -/
def Fits (overflowChecks : Bool) (s : State Thread) : Action Thread → Prop
  | .step t => (s.pc t).Fits overflowChecks
  | _ => True

instance (overflowChecks : Bool) (s : State Thread) (action : Action Thread) :
    Decidable (s.Fits overflowChecks action) :=
  match action with
  | .step t => inferInstanceAs (Decidable ((s.pc t).Fits overflowChecks))
  | .add .. | .clone .. | .wait .. | .cancel .. | .drop .. => inferInstanceAs (Decidable True)

instance {threads : Nat} (s : State (Fin threads)) (action : Action (Fin threads)) :
    Decidable (s.Alone action) :=
  match action with
  | .add .. | .clone .. => inferInstanceAs (Decidable (∀ u, (s.pc u).adding = false))
  | .step .. | .wait .. | .cancel .. | .drop .. => inferInstanceAs (Decidable True)

/-- The handles created before the last read of `total` by a wait that is about
to return have been dropped, all but the one it was called on. -/
def Released (s : State Thread) (t : Thread) : Prop :=
  ∀ handle seen, s.pc t = .leave handle seen →
    ∀ other < seen, other ≠ handle → other ∉ s.handles

/-- One addition runs at a time, so it finds `total` as it has read it. -/
structure Serial (s : State Thread) : Prop where
  adder_unique : ∀ t u, (s.pc t).adding = true → (s.pc u).adding = true → t = u
  current_eq : ∀ t handle v cloning current, s.pc t = .store handle v cloning current →
    current = s.total

theorem Serial.of_idle {s : State Thread} (idle : ∀ t, s.pc t = .idle) : s.Serial where
  adder_unique t u adding := by simp [idle, Pc.adding] at adding
  current_eq t handle v cloning current here := by simp [idle] at here

/-- What keeps a wait from returning early. -/
structure Counted (s : State Thread) : Prop where
  serial : s.Serial
  clone_fetchOr : ∀ t handle v, s.pc t = .fetchOr handle v true → v = 1
  clone_store : ∀ t handle v current, s.pc t = .store handle v true current → v = 1
  created_le : s.created ≤ s.total.toNat + 1
  building_le : ∀ t handle, s.pc t = .build handle → s.created ≤ s.total.toNat
  recv_le : ∀ t handle current, s.pc t = .recv handle current → current.toNat ≤ s.received
  compare_le : ∀ t handle current, s.pc t = .compare handle current →
    current.toNat ≤ s.received
  seen_le : ∀ t handle seen, s.pc t = .leave handle seen → seen ≤ s.created
  released : ∀ t, s.Released t

theorem Counted.new : (State.new Thread).Counted where
  serial := .of_idle fun _ => rfl
  clone_fetchOr := by simp [State.new]
  clone_store := by simp [State.new]
  created_le := by simp [State.new]
  building_le := by simp [State.new]
  recv_le := by simp [State.new]
  compare_le := by simp [State.new]
  seen_le := by simp [State.new]
  released := by simp [Released, State.new]

/-- As many messages as handles created, less one: only one handle is left. -/
theorem Sound.handles_eq {s : State Thread} (sound : s.Sound) {handle : Nat}
    (alive : handle ∈ s.handles) (enough : s.created ≤ s.queue + s.received + 1) :
    s.handles = [handle] := by
  have messages := sound.messages
  match list : s.handles with
  | [] => simp [list] at alive
  | [other] => simpa [list, eq_comm] using alive
  | _ :: _ :: _ =>
      rw [list] at messages
      simp only [List.length_cons] at messages
      omega

/-- What a fitting store does to `total`. -/
theorem Counted.toNat_store {s : State Thread} (counted : s.Counted) {overflowChecks : Bool}
    {t : Thread} {handle : Nat} {v : BitVec 64} {cloning : Bool} {current : BitVec 64}
    (here : s.pc t = .store handle v cloning current) (fits : s.Fits overflowChecks (.step t))
    (checked : overflowChecks = true → current.toNat + v.toNat < 2 ^ 64) :
    (current + v).toNat = s.total.toNat + v.toNat := by
  have small : current.toNat + v.toNat < 2 ^ 64 := by
    cases checks : overflowChecks with
    | true => exact checked checks
    | false =>
        have fits : (s.pc t).Fits overflowChecks := fits
        rw [here] at fits
        exact fits checks
  rw [BitVec.toNat_add, Nat.mod_eq_of_lt small,
    counted.serial.current_eq t handle v cloning current here]

variable [DecidableEq Thread]
variable {overflowChecks : Bool} {s next : State Thread} {action : Action Thread}

theorem Serial.preserved (serial : s.Serial) (move : Moves overflowChecks s action next)
    (alone : s.Alone action) : next.Serial where
  adder_unique t u left right := by
    have old := serial.adder_unique t u
    cases move with
    | add idle alive =>
        have none : ∀ u, (s.pc u).adding = false := alone
        grind -ring -linarith
    | clone idle alive =>
        have none : ∀ u, (s.pc u).adding = false := alone
        grind -ring -linarith
    | _ => grind -ring -linarith
  current_eq t handle v cloning current here := by
    have old := serial.current_eq t handle v cloning current
    have unique := serial.adder_unique
    cases move <;> grind -ring -linarith

namespace Counted

variable (counted : s.Counted)
include counted

theorem created_le_preserved (move : Moves overflowChecks s action next)
    (fits : s.Fits overflowChecks action) : next.created ≤ next.total.toNat + 1 := by
  have old := counted.created_le
  cases move with
  | store here checked =>
      have total := counted.toNat_store here fits checked
      simp only [finish_created, finish_total, total]
      omega
  | storeClone here checked =>
      have total := counted.toNat_store here fits checked
      simp only [goto_created, goto_total, total]
      omega
  | build here => simpa using counted.building_le _ _ here
  | _ => exact old

theorem building_le_preserved (move : Moves overflowChecks s action next)
    (fits : s.Fits overflowChecks action) (t : Thread) (handle : Nat)
    (here : next.pc t = .build handle) : next.created ≤ next.total.toNat := by
  have old := counted.building_le t handle
  have unique := counted.serial.adder_unique
  cases move with
  | @storeClone u handle' v current here' checked =>
      have total := counted.toNat_store here' fits checked
      have below := counted.created_le
      have one : v.toNat = 1 := by
        rw [counted.clone_store u handle' v current here']
        rfl
      simp only [goto_created, goto_total, total, one]
      exact below
  | _ => grind -ring -linarith

theorem released_preserved (move : Moves overflowChecks s action next) (sound : s.Sound)
    (t : Thread) : next.Released t := by
  have old := counted.released t
  have alive := sound.borrowed
  have messages := sound.messages
  have below := counted.created_le
  have seen := counted.seen_le t
  unfold Released at old ⊢
  cases move with
  | @loadZero u handle here zero =>
      have only := sound.handles_eq (alive u handle (by rw [here]; rfl))
        (by simp [zero] at below; omega)
      grind -ring -linarith
  | @disconnected u handle current here empty senders => grind -ring -linarith
  | @enough u handle current here reached =>
      have counted := counted.compare_le u handle current here
      have total : s.total.toNat ≤ current.toNat := BitVec.le_def.mp reached
      have only := sound.handles_eq (alive u handle (by rw [here]; rfl)) (by omega)
      grind -ring -linarith
  | drop live free =>
      intro handle seen here other earlier different member
      exact old handle seen here other earlier different (List.mem_of_mem_erase member)
  | _ => grind -ring -linarith

theorem preserved (move : Moves overflowChecks s action next) (sound : s.Sound)
    (alone : s.Alone action) (fits : s.Fits overflowChecks action) : next.Counted where
  serial := counted.serial.preserved move alone
  clone_fetchOr := by
    have old := counted.clone_fetchOr
    cases move <;> grind -ring -linarith
  clone_store := by
    have old := counted.clone_store
    have read := counted.clone_fetchOr
    cases move <;> grind -ring -linarith
  created_le := counted.created_le_preserved move fits
  building_le := counted.building_le_preserved move fits
  recv_le := by
    have old := counted.recv_le
    have compared := counted.compare_le
    cases move <;> grind -ring -linarith
  compare_le := by
    intro t handle current here
    have old := counted.compare_le t handle current
    have taken := counted.recv_le
    cases move with
    | @receive u handle' before queue here' sent =>
        have grows : (before + 1).toNat ≤ before.toNat + 1 := by
          rw [BitVec.toNat_add]
          exact Nat.mod_le _ _
        grind -ring -linarith
    | _ => grind -ring -linarith
  seen_le := by
    have old := counted.seen_le
    cases move <;> grind -ring -linarith
  released := counted.released_preserved move sound

end Counted

/-- The runs without overlapping additions. -/
def separate (overflowChecks : Bool) (Thread : Type) [DecidableEq Thread] :
    System (State Thread) (Action Thread) :=
  (waitGroup overflowChecks Thread).restrict Alone

/-- The runs in which additions neither overlap nor wrap. -/
def fitting (overflowChecks : Bool) (Thread : Type) [DecidableEq Thread] :
    System (State Thread) (Action Thread) :=
  (waitGroup overflowChecks Thread).restrict fun s action =>
    s.Alone action ∧ s.Fits overflowChecks action

theorem counted_of_reachable (reachable : (fitting overflowChecks Thread).Reachable s) :
    s.Counted := by
  have invariant : s.Sound ∧ s.Counted := by
    refine reachable.invariant (fun s => s.Sound ∧ s.Counted) ?_ ?_
    · rintro _ rfl
      exact ⟨.new, .new⟩
    · rintro s action next - ⟨sound, counted⟩ ⟨⟨alone, fits⟩, stepped⟩
      have move := moves_of_step stepped
      exact ⟨sound.preserved move, counted.preserved move sound alone fits⟩
  exact invariant.2

/-- With overflow checks there are never more clones than `total` can count. -/
theorem created_le_of_reachable (reachable : (separate true Thread).Reachable s) :
    s.created ≤ 2 ^ 64 := by
  have fits (s : State Thread) (action : Action Thread) : s.Fits true action := by
    cases action with
    | step t => cases here : s.pc t <;> simp [State.Fits, here, Pc.Fits]
    | _ => trivial
  have fitting : (fitting true Thread).Reachable s := by
    refine reachable.mono ?_ ?_
    · exact fun _ start => start
    · exact fun s action next move => ⟨⟨move.1, fits s action⟩, move.2⟩
  have bound := s.total.isLt
  have below := (counted_of_reachable fitting).created_le
  omega

end State

open State

/-- When a wait returns, every handle that had been created when the call last
read `total`, other than the one it was called on, has been dropped. For any
threads, any clones of any handles, any explicit additions and any waits, as
long as additions neither overlap nor wrap. -/
theorem wait_releases (overflowChecks : Bool) {Thread : Type} [DecidableEq Thread]
    {s : State Thread} (reachable : (fitting overflowChecks Thread).Reachable s) (t : Thread) :
    s.Released t := by
  exact (counted_of_reachable reachable).released t

/-- One clone, dropped before the wait on the original handle. -/
theorem wait_releases_clone : ∃ s : State (Fin 1),
    s.pc 0 = .leave 0 2 ∧ s.Released 0 := by
  have run : System.execute
      (System.guarded (State.step true) fun s action => s.Alone action ∧ s.Fits true action)
      (.new (Fin 1))
      [.clone 0 0, .step 0, .step 0, .step 0, .drop 1, .wait 0 0, .step 0, .step 0, .step 0] =
      some _ := rfl
  have reachable := System.reachable_of_execute_guarded run
  exact ⟨_, rfl, wait_releases true reachable 0⟩

/-- A handle cloned between the last read of `total` and the return is left
when the wait returns; and where additions wrap, a handle may be left that was
cloned before. -/
theorem wait_may_leave_handles :
    (¬ ∀ s : State (Fin 2), (separate true (Fin 2)).Reachable s → ∀ t handle seen,
      s.pc t = .leave handle seen → ∀ other ∈ s.handles, other = handle) ∧
    ¬ ∀ s : State (Fin 2), (separate false (Fin 2)).Reachable s → ∀ t, s.Released t := by
  constructor
  · intro holds
    have run : System.execute (System.guarded (State.step true) Alone) (.new (Fin 2))
        [.wait 0 0, .step 0, .clone 1 0, .step 1, .step 1, .step 1] = some _ := rfl
    have reachable := System.reachable_of_execute_guarded run
    cases holds _ reachable 0 0 1 rfl 1 List.mem_cons_self
  · intro holds
    have run : System.execute (System.guarded (State.step false) Alone) (.new (Fin 2))
        [.add 0 0 (BitVec.allOnes 64), .step 0, .step 0, .clone 0 0, .step 0, .step 0, .step 0,
          .wait 0 0, .step 0] = some _ := rfl
    have reachable := System.reachable_of_execute_guarded run
    exact holds _ reachable 0 0 2 rfl 1 (by decide) (by decide) List.mem_cons_self

end DarkStd.WaitGroup
