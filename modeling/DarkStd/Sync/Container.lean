import Mathlib.Data.BitVec
import DarkStd.Semantics.System

/-!
# The synchronisation of one container

`SyncVec`, `SyncHashMap`, `SyncBtreeMap` and `SyncIndexMap` declare the same
fields beside their content (`write`, `id`, `writing`, `registry`) and copy the
same `begin_read` and `begin_write`. This module is that code as a transition
system: one action is one atomic operation of one thread, and any thread may
take the next one. Operations on atomics and mutexes are sequentially
consistent. `yield_now` changes nothing and is not a step.

The content and what a method does with it are left to `Content`; here a
method body is the stretch between `begin_read` or `begin_write` returning and
the release of what it returned.
-/

namespace DarkStd.Sync

open DarkStd.Semantics

/-- The container types that share the protocol. -/
inductive Kind where
  | vec
  | hashMap
  | btreeMap
  | indexMap
deriving DecidableEq, Repr

/-- `VecIter` has no `_not_send` marker; the iterators of the maps have one. -/
def Kind.iterIsSend : Kind → Bool
  | .vec => true
  | .hashMap | .btreeMap | .indexMap => false

/-- The types whose drop is `count.fetch_sub(1)`: `ReadGuard`, `ReadMapGuard`
and the read iterators. -/
inductive ReadKind where
  | value
  | container
  | iter
deriving DecidableEq, Repr

/-- The types that own a `WriteLock`: `WriteGuard` and the write iterators. -/
inductive WriteKind where
  | value
  | iter
deriving DecidableEq, Repr

/-- The `&self` methods that call `begin_read`; `contains` stands for
`contains_key` on the maps. -/
inductive ReadMethod where
  | len
  | isEmpty
  | contains
  | get
  | iter
  | dirtyRef
  | clone
deriving DecidableEq, Repr

/-- The guard a read method may return to its caller. -/
def ReadMethod.handsOut : ReadMethod → Option ReadKind
  | .get => some .value
  | .dirtyRef => some .container
  | .iter => some .iter
  | .len | .isEmpty | .contains | .clone => none

/-- Whether a read method may give its slot back before it returns. `get` does
on a miss; `clone` drops the `dirty_ref` it has copied from. -/
def ReadMethod.mayRelease : ReadMethod → Bool
  | .iter | .dirtyRef => false
  | .len | .isEmpty | .contains | .get | .clone => true

/-- The `&self` methods that call `begin_write`, on one kind or the other. -/
inductive WriteMethod where
  | insert
  | set
  | push
  | pushes
  | pop
  | remove
  | clear
  | shrinkToFit
  | getMut
  | iterMut
deriving DecidableEq, Repr

/-- Which of them each kind has. `SyncBtreeMap::shrink_to_fit` has an empty body and
is no call here. -/
def Kind.locks : Kind → WriteMethod → Bool
  | _, .insert | _, .remove | _, .clear | _, .getMut | _, .iterMut => true
  | kind, .shrinkToFit => kind != .btreeMap
  | kind, .set | kind, .push | kind, .pushes | kind, .pop => kind == .vec

/-- The guard a write method may return to its caller. -/
def WriteMethod.handsOut : WriteMethod → Option WriteKind
  | .getMut => some .value
  | .iterMut => some .iter
  | .insert | .set | .push | .pushes | .pop | .remove | .clear | .shrinkToFit => none

/-- Whether a write method may drop its `WriteLock` before it returns. -/
def WriteMethod.mayRelease : WriteMethod → Bool
  | .iterMut => false
  | .insert | .set | .push | .pushes | .pop | .remove | .clear | .shrinkToFit | .getMut => true

/-- A running read call. -/
structure ReadCall where
  id : Nat
  method : ReadMethod
deriving DecidableEq, Repr

/-- A running write call. -/
structure WriteCall where
  id : Nat
  method : WriteMethod
deriving DecidableEq, Repr

/-- Where a thread is in this container's code. `count` is the local variable
of `begin_read`: the position in the registry of the counter it points to. -/
inductive Pc where
  | idle
  /-- `reader_count_for`: look the container up in this thread's `SLOTS`. -/
  | slot (call : ReadCall)
  /-- `registry.lock()`, on the first read of this thread. -/
  | register (call : ReadCall)
  /-- `reg.push(..)`, `all.push(..)`, `last.set(..)`, with `reg` locked. -/
  | push (call : ReadCall)
  /-- `reg` goes out of scope. -/
  | release (call : ReadCall) (count : Nat)
  /-- `count.fetch_add(1)` -/
  | add (call : ReadCall) (count : Nat)
  /-- `self.writing.load()` -/
  | load (call : ReadCall) (count : Nat)
  /-- `count.fetch_sub(1)`, because a writer was seen. -/
  | backOff (call : ReadCall) (count : Nat)
  /-- `begin_read` has returned and the method body runs. -/
  | reading (call : ReadCall) (count : Nat)
  /-- `self.write.lock()` -/
  | acquire (call : WriteCall)
  /-- `self.writing.store(true)` -/
  | raise (call : WriteCall)
  /-- `self.registry.lock()` -/
  | scanLock (call : WriteCall)
  /-- `c.load()` of the counter at `next`, inside `registry.iter().all(..)`. -/
  | scan (call : WriteCall) (next : Nat)
  /-- `registry` is dropped: by `break` when all were zero, else by hand. -/
  | scanned (call : WriteCall) (allZero : Bool)
  /-- `begin_write` has returned and the method body runs. -/
  | writing (call : WriteCall)
  /-- `WriteLock::drop`: `self.writing.store(false)`. -/
  | lower (id : Nat)
  /-- The field `_lock` of the `WriteLock` is dropped. -/
  | unlock (id : Nat)
deriving DecidableEq, Repr

/-- A live `ReadGuard`, `ReadMapGuard` or read iterator. Its `id` is the id of
the call that returned it. -/
structure ReadGuard (Thread : Type) where
  id : Nat
  kind : ReadKind
  count : Nat
  holder : Thread
deriving DecidableEq, Repr

/-- A live `WriteGuard` or write iterator; it is not `Send`. -/
structure WriteGuard (Thread : Type) where
  id : Nat
  kind : WriteKind
  holder : Thread
deriving DecidableEq, Repr

/-- One container, what each thread's `SLOTS` remembers for it, where each
thread is in its code, and the guards that are alive. `w` is the width of
`usize`; a mutex is its owner. -/
structure State (Thread : Type) (w : Nat) where
  write : Option Thread
  writing : Bool
  registry : List (BitVec w)
  registryLock : Option Thread
  slots : Thread → Option Nat
  pc : Thread → Pc
  readGuards : List (ReadGuard Thread)
  writeGuards : List (WriteGuard Thread)
  nextCall : Nat

/-- What a thread may do next. -/
inductive Action (Thread : Type) where
  /-- Call a read method. -/
  | read (thread : Thread) (method : ReadMethod)
  /-- Call a write method that the kind has. -/
  | write (thread : Thread) (method : WriteMethod)
  /-- The next atomic step of a running call. -/
  | step (thread : Thread)
  /-- The body of a read method ends: it returns a guard or gives its slot back. -/
  | leaveRead (thread : Thread) (returned : Option ReadKind)
  /-- The body of a write method ends: it returns a guard or drops its lock. -/
  | leaveWrite (thread : Thread) (returned : Option WriteKind)
  /-- Drop a read guard or read iterator. -/
  | dropRead (thread : Thread) (id : Nat)
  /-- Drop a write guard or write iterator. -/
  | dropWrite (thread : Thread) (id : Nat)
  /-- A read iterator is handed to another thread. -/
  | send (id : Nat) (receiver : Thread)
deriving DecidableEq, Repr

/-- A container just constructed: no lock held, no reader registered. -/
def State.new (Thread : Type) (w : Nat) : State Thread w where
  write := none
  writing := false
  registry := []
  registryLock := none
  slots := fun _ => none
  pc := fun _ => .idle
  readGuards := []
  writeGuards := []
  nextCall := 0

/-- The live guards and iterators that release the counter at `count`. -/
def guardsOn {Thread : Type} (guards : List (ReadGuard Thread)) (count : Nat) : Nat :=
  guards.countP (·.count == count)

namespace State

variable {Thread : Type} [DecidableEq Thread] {w : Nat}

/-- Move one thread to another point of the code. -/
def goto (s : State Thread w) (t : Thread) (pc : Pc) : State Thread w :=
  { s with pc := Function.update s.pc t pc }

/-- `fetch_add(1)` on the counter at a position of the registry. -/
def fetchAdd (s : State Thread w) (count : Nat) : State Thread w :=
  { s with registry := s.registry.modify count (· + 1) }

/-- `fetch_sub(1)` on the counter at a position of the registry. -/
def fetchSub (s : State Thread w) (count : Nat) : State Thread w :=
  { s with registry := s.registry.modify count (· - 1) }

/-- The live guards and iterators created on a thread. -/
def guardsOf (s : State Thread w) (t : Thread) : Nat :=
  (s.slots t).elim 0 (guardsOn s.readGuards)

/-- One more section of the thread fits in its counter. -/
def HasRoom (s : State Thread w) (t : Thread) : Prop := s.guardsOf t + 1 < 2 ^ w

instance (s : State Thread w) (t : Thread) : Decidable (s.HasRoom t) :=
  inferInstanceAs (Decidable (_ < _))

/-- `reader_count_for`, `begin_read`, `begin_write` and the drop of `WriteLock`,
one atomic operation at a time. -/
def advance (s : State Thread w) (t : Thread) : Option (State Thread w) :=
  match s.pc t with
  | .slot call =>
      match s.slots t with
      | some count => some (s.goto t (.add call count))
      | none => some (s.goto t (.register call))
  | .register call =>
      if s.registryLock = none then
        some ({ s with registryLock := some t }.goto t (.push call))
      else none
  | .push call =>
      some ({ s with
        registry := s.registry ++ [0]
        slots := Function.update s.slots t (some s.registry.length) }.goto t
          (.release call s.registry.length))
  | .release call count => some ({ s with registryLock := none }.goto t (.add call count))
  | .add call count => some ((s.fetchAdd count).goto t (.load call count))
  | .load call count =>
      if s.writing then some (s.goto t (.backOff call count))
      else some (s.goto t (.reading call count))
  | .backOff call count => some ((s.fetchSub count).goto t (.add call count))
  | .acquire call =>
      if s.write = none then some ({ s with write := some t }.goto t (.raise call)) else none
  | .raise call => some ({ s with writing := true }.goto t (.scanLock call))
  | .scanLock call =>
      if s.registryLock = none then
        some ({ s with registryLock := some t }.goto t (.scan call 0))
      else none
  | .scan call next =>
      match s.registry[next]? with
      | none => some (s.goto t (.scanned call true))
      | some counter =>
          if counter = 0 then some (s.goto t (.scan call (next + 1)))
          else some (s.goto t (.scanned call false))
  | .scanned call allZero =>
      some ({ s with registryLock := none }.goto t
        (if allZero then .writing call else .scanLock call))
  | .lower id => some ({ s with writing := false }.goto t (.unlock id))
  | .unlock _ => some ({ s with write := none }.goto t .idle)
  | .idle | .reading _ _ | .writing _ => none

/-- One action on a container of the given kind. A thread drops a guard or
starts a call only between its own calls, and takes an iterator over only
there. -/
def step (kind : Kind) (s : State Thread w) : Action Thread → Option (State Thread w)
  | .read t method =>
      if s.pc t = .idle ∧ s.HasRoom t then
        some ({ s with nextCall := s.nextCall + 1 }.goto t (.slot ⟨s.nextCall, method⟩))
      else none
  | .write t method =>
      if s.pc t = .idle ∧ kind.locks method then
        some ({ s with nextCall := s.nextCall + 1 }.goto t (.acquire ⟨s.nextCall, method⟩))
      else none
  | .step t => s.advance t
  | .leaveRead t returned =>
      match s.pc t, returned with
      | .reading call count, none =>
          if call.method.mayRelease then some ((s.fetchSub count).goto t .idle) else none
      | .reading call count, some guard =>
          if call.method.handsOut = some guard then
            some ({ s with
              readGuards := ⟨call.id, guard, count, t⟩ :: s.readGuards }.goto t .idle)
          else none
      | _, _ => none
  | .leaveWrite t returned =>
      match s.pc t, returned with
      | .writing call, none =>
          if call.method.mayRelease then some (s.goto t (.lower call.id)) else none
      | .writing call, some guard =>
          if call.method.handsOut = some guard then
            some ({ s with writeGuards := ⟨call.id, guard, t⟩ :: s.writeGuards }.goto t .idle)
          else none
      | _, _ => none
  | .dropRead t id =>
      match s.readGuards.find? (fun guard => guard.id = id ∧ guard.holder = t) with
      | some guard =>
          if s.pc t = .idle then
            some ({ s with readGuards := s.readGuards.erase guard }.fetchSub guard.count)
          else none
      | none => none
  | .dropWrite t id =>
      match s.writeGuards.find? (fun guard => guard.id = id ∧ guard.holder = t) with
      | some guard =>
          if s.pc t = .idle then
            some ({ s with writeGuards := s.writeGuards.erase guard }.goto t (.lower guard.id))
          else none
      | none => none
  | .send id receiver =>
      match s.readGuards.find? (fun guard => guard.id = id ∧ guard.kind = .iter) with
      | some guard =>
          if kind.iterIsSend ∧ s.pc receiver = .idle then
            some { s with readGuards :=
              { guard with holder := receiver } :: s.readGuards.erase guard }
          else none
      | none => none

end State

/-- The synchronisation of one container of the given kind, used by any number
of threads. -/
def container (kind : Kind) (Thread : Type) [DecidableEq Thread] (w : Nat) :
    System (State Thread w) (Action Thread) :=
  .ofFunction (.new Thread w) (State.step kind)

end DarkStd.Sync
