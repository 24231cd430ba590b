import Mathlib.Data.BitVec
import Mathlib.Data.Finset.Insert
import DarkStd.Semantics.System

/-!
# WaitGroup

One group and all its handles, as a transition system: one action is one atomic
operation of one thread on `total` or on the channel, and any thread may take
the next one. The channel is an unbounded queue that delivers each message to
one receiver; every message is the 1 that `Drop` sends, so the queue is how many
there are. `wait` and `wait_async` have the same body and are one call here; a
`wait_async` future may also be dropped where it awaits.
-/

namespace DarkStd.WaitGroup

open DarkStd.Semantics

/-- Where a thread is in the code of a handle. -/
inductive Pc where
  | idle
  /-- `add`: `self.total.fetch_or(0)`; `cloning` when `clone` has called it. -/
  | fetchOr (handle : Nat) (v : BitVec 64) (cloning : Bool)
  /-- `add`: `self.total.store(current + v)` -/
  | store (handle : Nat) (v : BitVec 64) (cloning : Bool) (current : BitVec 64)
  /-- `clone`: the new handle, after `self.add(1)`. -/
  | build (handle : Nat)
  /-- `wait`: `self.total.load() == 0` -/
  | load (handle : Nat)
  /-- `wait`: `self.recv.recv()` -/
  | recv (handle : Nat) (current : BitVec 64)
  /-- `wait`: `self.total.fetch_or(0)` and `current >= total`, after a message. -/
  | compare (handle : Nat) (current : BitVec 64)
  /-- `wait` is about to return; `seen` handles had been created when it last
  read `total`. -/
  | leave (handle : Nat) (seen : Nat)
deriving DecidableEq, Repr

/-- One group. `handles` are the handles that exist, named by the order of
their creation; each owns a sender. `calls` are the running calls with the
handle each borrows. The last three record the past: the messages received, the
sum of what has been added to `total`, and the threads whose `wait` returned. -/
structure State (Thread : Type) where
  total : BitVec 64
  queue : Nat
  handles : List Nat
  created : Nat
  calls : List (Thread × Nat)
  pc : Thread → Pc
  received : Nat
  added : Nat
  returned : List Thread

/-- What threads do with the handles of a group. -/
inductive Action (Thread : Type) where
  | add (thread : Thread) (handle : Nat) (v : BitVec 64)
  | clone (thread : Thread) (handle : Nat)
  /-- `wait` or `wait_async` -/
  | wait (thread : Thread) (handle : Nat)
  /-- The next atomic step of a running call. -/
  | step (thread : Thread)
  /-- The future of a `wait_async` is dropped. -/
  | cancel (thread : Thread)
  /-- A handle that no call borrows is dropped. -/
  | drop (handle : Nat)
deriving DecidableEq, Repr

namespace State

variable {Thread : Type}

/-- `WaitGroup::new` -/
def new (Thread : Type) : State Thread where
  total := 0
  queue := 0
  handles := [0]
  created := 1
  calls := []
  pc := fun _ => .idle
  received := 0
  added := 0
  returned := []

/-- No call borrows the handle. -/
def Free (s : State Thread) (handle : Nat) : Prop := ∀ call ∈ s.calls, call.2 ≠ handle

instance (s : State Thread) (handle : Nat) : Decidable (s.Free handle) :=
  inferInstanceAs (Decidable (∀ call ∈ s.calls, call.2 ≠ handle))

variable [DecidableEq Thread]

/-- Move one thread to another point of the code. -/
def goto (s : State Thread) (t : Thread) (pc : Pc) : State Thread :=
  { s with pc := Function.update s.pc t pc }

/-- A thread calls a method of a handle. -/
def call (s : State Thread) (t : Thread) (handle : Nat) (pc : Pc) : Option (State Thread) :=
  if s.pc t = .idle ∧ handle ∈ s.handles then
    some ({ s with calls := (t, handle) :: s.calls }.goto t pc)
  else none

/-- A call ends. -/
def finish (s : State Thread) (t : Thread) (handle : Nat) : State Thread :=
  { s with calls := s.calls.erase (t, handle) }.goto t .idle

/-- The next atomic step of a running call. In a build with overflow checks
`current + v` panics where it would wrap, and the call unwinds. -/
def advance (overflowChecks : Bool) (s : State Thread) (t : Thread) : Option (State Thread) :=
  match s.pc t with
  | .fetchOr handle v cloning => some (s.goto t (.store handle v cloning s.total))
  | .store handle v cloning current =>
      if overflowChecks ∧ 2 ^ 64 ≤ current.toNat + v.toNat then some (s.finish t handle)
      else
        let stored := { s with total := current + v, added := s.added + v.toNat }
        some (if cloning then stored.goto t (.build handle) else stored.finish t handle)
  | .build handle =>
      some ({ s with handles := s.created :: s.handles, created := s.created + 1 }.finish t handle)
  | .load handle =>
      some (s.goto t (if s.total = 0 then .leave handle s.created else .recv handle 0))
  | .recv handle current =>
      match s.queue with
      | queue + 1 =>
          some ({ s with queue := queue, received := s.received + 1 }.goto t
            (.compare handle (current + 1)))
      | 0 => if s.handles = [] then some (s.goto t (.leave handle s.created)) else none
  | .compare handle current =>
      some (s.goto t (if s.total ≤ current then .leave handle s.created else .recv handle current))
  | .leave handle _ => some ({ s with returned := t :: s.returned }.finish t handle)
  | .idle => none

/-- One action. -/
def step (overflowChecks : Bool) (s : State Thread) : Action Thread → Option (State Thread)
  | .add t handle v => s.call t handle (.fetchOr handle v false)
  | .clone t handle => s.call t handle (.fetchOr handle 1 true)
  | .wait t handle => s.call t handle (.load handle)
  | .step t => s.advance overflowChecks t
  | .cancel t =>
      match s.pc t with
      | .recv handle _ => some (s.finish t handle)
      | _ => none
  | .drop handle =>
      if handle ∈ s.handles ∧ s.Free handle then
        some { s with handles := s.handles.erase handle, queue := s.queue + 1 }
      else none

end State

/-- A group, used by any number of threads. -/
def waitGroup (overflowChecks : Bool) (Thread : Type) [DecidableEq Thread] :
    System (State Thread) (Action Thread) :=
  .ofFunction (.new Thread) (State.step overflowChecks)

end DarkStd.WaitGroup
