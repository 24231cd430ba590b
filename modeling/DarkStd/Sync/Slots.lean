import Mathlib.Data.BitVec
import Mathlib.Data.List.Nodup
import DarkStd.Semantics.System

/-!
# Reader slots

`reader_count_for` and the three structures it keeps in step: the one-element
cache `last` and the vector `all` of every thread, and the registry of every
container. A container is named by the order of its creation; its `id` is what
`CONTAINER_ID.fetch_add(1)` returned, so ids repeat when the counter wraps. A
counter is named by its address: a `Box` gets any address no live registry
holds, and the addresses of a dropped container may be given out again.
-/

namespace DarkStd.Sync.Slots

open DarkStd.Semantics

/-- `ReaderSlots`. A null pointer is `none`; nothing null is ever put in `all`. -/
structure ReaderSlots (Address : Type) (w : Nat) where
  last : BitVec w × Option Address
  all : List (BitVec w × Address)

namespace ReaderSlots

variable {Address : Type} {w : Nat}

/-- The initial value of `SLOTS`, with the id `usize::MAX`. -/
def new (Address : Type) (w : Nat) : ReaderSlots Address w := ⟨(BitVec.allOnes w, none), []⟩

/-- The search of `all`. -/
def search (slots : ReaderSlots Address w) (id : BitVec w) : Option Address :=
  (slots.all.find? fun entry => entry.1 = id).map (·.2)

/-- The part of `reader_count_for` before the registry is locked: the counter it
returns, if it knows one, and the slots afterwards. -/
def lookup (slots : ReaderSlots Address w) (id : BitVec w) :
    Option Address × ReaderSlots Address w :=
  if slots.last.1 = id ∧ slots.last.2.isSome then (slots.last.2, slots)
  else
    match slots.search id with
    | some c => (some c, { slots with last := (id, some c) })
    | none => (none, slots)

/-- `all.push((id, ptr))` and `slots.last.set((id, ptr))`. -/
def remember (slots : ReaderSlots Address w) (id : BitVec w) (ptr : Address) :
    ReaderSlots Address w :=
  ⟨(id, some ptr), slots.all ++ [(id, ptr)]⟩

end ReaderSlots

/-- What a container and `reader_count_for` share. `callers` are the threads
that borrow the container for a call. -/
structure Shared (Thread Address : Type) (w : Nat) where
  id : BitVec w
  registry : List Address
  registryLock : Option Thread
  callers : List Thread

/-- Where a thread is in `reader_count_for`. -/
inductive Pc (Address : Type) where
  | idle
  /-- `slots.last.get()` and the search of `all`; thread-local, so one step. -/
  | lookup (c : Nat)
  /-- `registry.lock()` -/
  | register (c : Nat)
  /-- `reg.push(..)`, `all.push(..)`, `last.set(..)`, with `reg` locked. -/
  | push (c : Nat)
  /-- `reg` goes out of scope. -/
  | release (c : Nat) (ptr : Address)
  /-- The call has returned the counter at `ptr`. -/
  | done (c : Nat) (ptr : Address)

/-- All containers ever created, by the order of creation; `none` is one not
yet created or dropped. `returned` records what every call returned. -/
structure State (Thread Address : Type) (w : Nat) where
  containerId : BitVec w
  created : Nat
  containers : Nat → Option (Shared Thread Address w)
  slots : Thread → ReaderSlots Address w
  pc : Thread → Pc Address
  ended : Thread → Bool
  returned : List (Thread × Nat × Address)

/-- The public ways to make a container. -/
inductive Constructor where
  | new
  | newArc
  | withCapacity
  | withContent
  | «from»
  | clone
  | default
  | deserialize
deriving DecidableEq, Repr

/-- What threads do with containers. -/
inductive Action (Thread Address : Type) where
  /-- Create a container. -/
  | create (how : Constructor)
  /-- Drop a container that nobody borrows, or consume it by `into_inner`. -/
  | drop (c : Nat)
  /-- Call `reader_count_for` for a container. -/
  | call (thread : Thread) (c : Nat)
  /-- The next step of a running call, up to its return. -/
  | step (thread : Thread)
  /-- The step of a running call that allocates its counter. -/
  | push (thread : Thread) (address : Address)
  /-- The caller gives up the container. -/
  | leave (thread : Thread)
  /-- A thread ends, and its `SLOTS` with it. -/
  | exit (thread : Thread)

namespace State

variable {Thread Address : Type} {w : Nat}

/-- Before the first container. -/
def start (Thread Address : Type) (w : Nat) : State Thread Address w where
  containerId := 0
  created := 0
  containers := fun _ => none
  slots := fun _ => .new Address w
  pc := fun _ => .idle
  ended := fun _ => false
  returned := []

/-- The registry of a container that exists. -/
def registry (s : State Thread Address w) (c : Nat) : List Address :=
  (s.containers c).elim [] (·.registry)

/-- The address belongs to a counter that exists. -/
def Allocated (s : State Thread Address w) (address : Address) : Prop :=
  ∃ c < s.created, address ∈ s.registry c

instance [DecidableEq Address] (s : State Thread Address w) (address : Address) :
    Decidable (s.Allocated address) :=
  inferInstanceAs (Decidable (∃ c < s.created, address ∈ s.registry c))

/-- `Self { .., id: CONTAINER_ID.fetch_add(1), registry: Mutex::new(Vec::new()) }` -/
def fresh (s : State Thread Address w) : State Thread Address w :=
  { s with
    containerId := s.containerId + 1
    created := s.created + 1
    containers := Function.update s.containers s.created (some ⟨s.containerId, [], none, []⟩) }

/-- `new` -/
def new (s : State Thread Address w) : State Thread Address w := s.fresh

/-- `new_arc`: `Arc::new(Self::new())` -/
def newArc (s : State Thread Address w) : State Thread Address w := s.new

/-- `with_capacity` -/
def withCapacity (s : State Thread Address w) : State Thread Address w := s.fresh

/-- `with_vec` and `with_map` -/
def withContent (s : State Thread Address w) : State Thread Address w := s.fresh

/-- `from`: `Self::with_vec(vec)`, `Self::with_map(map)` -/
def «from» (s : State Thread Address w) : State Thread Address w := s.withContent

/-- `clone`: `from` a copy; the read of the original is a call of its own. -/
def clone (s : State Thread Address w) : State Thread Address w := s.from

/-- `default`: `new` -/
def default (s : State Thread Address w) : State Thread Address w := s.new

/-- `deserialize`: `from` what was deserialized -/
def deserialize (s : State Thread Address w) : State Thread Address w := s.from

/-- Create a container. -/
def create (s : State Thread Address w) : Constructor → State Thread Address w
  | .new => s.new
  | .newArc => s.newArc
  | .withCapacity => s.withCapacity
  | .withContent => s.withContent
  | .from => s.from
  | .clone => s.clone
  | .default => s.default
  | .deserialize => s.deserialize

variable [DecidableEq Thread] [DecidableEq Address]

/-- Move one thread to another point of the code. -/
def goto (s : State Thread Address w) (t : Thread) (pc : Pc Address) : State Thread Address w :=
  { s with pc := Function.update s.pc t pc }

/-- Replace what a container shares. -/
def set (s : State Thread Address w) (c : Nat) (shared : Shared Thread Address w) :
    State Thread Address w :=
  { s with containers := Function.update s.containers c (some shared) }

/-- Replace the slots of a thread. -/
def setSlots (s : State Thread Address w) (t : Thread) (slots : ReaderSlots Address w) :
    State Thread Address w :=
  { s with slots := Function.update s.slots t slots }

/-- A call returns. -/
def finish (s : State Thread Address w) (t : Thread) (c : Nat) (ptr : Address) :
    State Thread Address w :=
  { s with returned := (t, c, ptr) :: s.returned }.goto t (.done c ptr)

/-- One action. -/
def step (s : State Thread Address w) : Action Thread Address → Option (State Thread Address w)
  | .create how => some (s.create how)
  | .drop c =>
      match s.containers c with
      | some shared =>
          if shared.callers = [] then
            some { s with containers := Function.update s.containers c none }
          else none
      | none => none
  | .call t c =>
      match s.pc t, s.containers c with
      | .idle, some shared =>
          if s.ended t = false then
            some ((s.set c { shared with callers := t :: shared.callers }).goto t (.lookup c))
          else none
      | _, _ => none
  | .step t =>
      match s.pc t with
      | .lookup c =>
          match s.containers c with
          | some shared =>
              match (s.slots t).lookup shared.id with
              | (some ptr, slots) => some ((s.setSlots t slots).finish t c ptr)
              | (none, slots) => some ((s.setSlots t slots).goto t (.register c))
          | none => none
      | .register c =>
          match s.containers c with
          | some shared =>
              if shared.registryLock = none then
                some ((s.set c { shared with registryLock := some t }).goto t (.push c))
              else none
          | none => none
      | .release c ptr =>
          match s.containers c with
          | some shared => some ((s.set c { shared with registryLock := none }).finish t c ptr)
          | none => none
      | .idle | .push _ | .done _ _ => none
  | .push t address =>
      match s.pc t with
      | .push c =>
          match s.containers c with
          | some shared =>
              if ¬ s.Allocated address then
                some (((s.set c { shared with registry := shared.registry ++ [address] }).setSlots t
                  ((s.slots t).remember shared.id address)).goto t (.release c address))
              else none
          | none => none
      | _ => none
  | .leave t =>
      match s.pc t with
      | .done c _ =>
          match s.containers c with
          | some shared =>
              some ((s.set c { shared with callers := shared.callers.erase t }).goto t .idle)
          | none => none
      | _ => none
  | .exit t =>
      match s.pc t with
      | .idle =>
          some { s with
            ended := Function.update s.ended t true
            slots := Function.update s.slots t (.new Address w) }
      | _ => none

/-- Fewer than `2 ^ w` containers are created. -/
def FewContainers (s : State Thread Address w) : Action Thread Address → Prop
  | .create _ => s.created + 1 < 2 ^ w
  | _ => True

instance (s : State Thread Address w) (action : Action Thread Address) :
    Decidable (s.FewContainers action) :=
  match action with
  | .create _ => inferInstanceAs (Decidable (_ < _))
  | .drop .. | .call .. | .step .. | .push .. | .leave .. | .exit .. =>
      inferInstanceAs (Decidable True)

end State

/-- Any number of threads and containers. -/
def slots (Thread Address : Type) [DecidableEq Thread] [DecidableEq Address] (w : Nat) :
    System (State Thread Address w) (Action Thread Address) :=
  (System.ofFunction (.start Thread Address w) State.step).restrict State.FewContainers

end DarkStd.Sync.Slots
