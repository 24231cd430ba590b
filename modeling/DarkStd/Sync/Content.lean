import DarkStd.Semantics.Body
import DarkStd.Sync.Exclusion

/-!
# A container with its content

The protocol together with what it protects: every call brings the body of its
method, which accesses the content one access at a time while its section is
open, and so do the users of the guards that it may return. `history` records
the sections in the order in which they were opened: a read section at the
`load` that finds the flag down, a write section when its scan has ended.
-/

namespace DarkStd.Sync

open DarkStd.Semantics

/-- How the body of a method ends. -/
inductive Outcome (R : Type) where
  /-- It returns, and its section ends with it. -/
  | returned (result : R)
  /-- It returns a guard or an iterator. -/
  | guard (result : R)
  /-- It unwinds. -/
  | panicked
deriving DecidableEq, Repr

/-- The methods of a container type, as the source has them, and what each is
on the collection inside, as one operation. -/
structure Interface (C : Type) where
  ReadOp : Type
  WriteOp : Type
  Result : Type
  readMethod : ReadOp → ReadMethod
  writeMethod : WriteOp → WriteMethod
  readBody : ReadOp → Body C (Outcome Result)
  writeBody : WriteOp → Body C (Outcome Result)
  read : ReadOp → C → Outcome Result
  write : WriteOp → C → C × Outcome Result
  readOnly : ∀ op, (readBody op).ReadOnly
  run_readBody : ∀ op content, (readBody op).run content = (content, read op content)
  run_writeBody : ∀ op content, (writeBody op).run content = write op content

/-- A call of a method. -/
inductive Interface.Op {C : Type} (methods : Interface C) where
  | read (op : methods.ReadOp)
  | write (op : methods.WriteOp)

namespace Interface

variable {C : Type} (methods : Interface C)

/-- The body of the called method. -/
def body : methods.Op → Body C (Outcome methods.Result)
  | .read op => methods.readBody op
  | .write op => methods.writeBody op

/-- The called method on the collection inside. -/
def apply : methods.Op → C → C × Outcome methods.Result
  | .read op, content => (content, methods.read op content)
  | .write op, content => methods.write op content

theorem run_body (op : methods.Op) (content : C) :
    (methods.body op).run content = methods.apply op content := by
  cases op with
  | read op => exact methods.run_readBody op content
  | write op => exact methods.run_writeBody op content

end Interface

/-- The section of one call: what was called, the content when the section was
opened and as the section has left it, how the body ended, and the content
before and after each use of the guard it returned. -/
structure Section {C : Type} (methods : Interface C) where
  id : Nat
  op : methods.Op
  start : C
  finish : C
  outcome : Option (Outcome methods.Result)
  uses : List (C × C)

/-- What a caller can tell: that a method was called, that it has ended. -/
inductive Event {C : Type} (methods : Interface C) where
  | called (id : Nat) (op : methods.Op)
  | ended (id : Nat) (outcome : Outcome methods.Result)

/-- A running method and what is left of its body. -/
structure Running {C : Type} (methods : Interface C) where
  op : methods.Op
  rest : Body C (Outcome methods.Result)

/-- A container with its content, what every thread's method has still to do,
and what has happened so far. -/
structure Store {C : Type} (methods : Interface C) (Thread : Type) (w : Nat) where
  sync : State Thread w
  content : C
  running : Thread → Option (Running methods)
  history : List (Section methods)
  events : List (Event methods)

/-- What may happen to a container and its content. -/
inductive StoreAction {C : Type} (methods : Interface C) (Thread : Type) where
  /-- Call a read method. -/
  | read (thread : Thread) (op : methods.ReadOp)
  /-- Call a write method. -/
  | write (thread : Thread) (op : methods.WriteOp)
  /-- The next atomic step of `begin_read`, `begin_write` or the drop of a `WriteLock`. -/
  | step (thread : Thread)
  /-- The body of a running method accesses the content. -/
  | access (thread : Thread)
  /-- The body of a running method ends, by its return or by unwinding. -/
  | leave (thread : Thread)
  /-- The content is read through a read guard or a read iterator. -/
  | look (thread : Thread) (id : Nat)
  /-- The content is changed through a write guard or a write iterator. -/
  | use (thread : Thread) (id : Nat) (change : C → C)
  /-- Drop a read guard or read iterator. -/
  | dropRead (thread : Thread) (id : Nat)
  /-- Drop a write guard or write iterator. -/
  | dropWrite (thread : Thread) (id : Nat)
  /-- A read iterator is handed to another thread. -/
  | send (id : Nat) (receiver : Thread)

namespace Pc

/-- The call whose section has been opened and not yet left. -/
def opened : Pc → Option Nat
  | .reading call _ => some call.id
  | .writing call => some call.id
  | _ => none

end Pc

/-- What a read method hands to its caller; a panic of a read is not treated here. -/
def ReadMethod.hands {R : Type} (method : ReadMethod) : Outcome R → Option (Option ReadKind)
  | .returned _ => some none
  | .guard _ => method.handsOut.map some
  | .panicked => none

/-- What a write method hands to its caller; unwinding drops the `WriteLock`. -/
def WriteMethod.hands {R : Type} (method : WriteMethod) : Outcome R → Option (Option WriteKind)
  | .returned _ | .panicked => some none
  | .guard _ => method.handsOut.map some

namespace Store

variable {C Thread : Type} {methods : Interface C} {w : Nat}

/-- A container just constructed with the given content. -/
def new (methods : Interface C) (Thread : Type) (w : Nat) (content : C) :
    Store methods Thread w where
  sync := .new Thread w
  content := content
  running := fun _ => none
  history := []
  events := []

/-- Change what is recorded of one section. -/
def record (s : Store methods Thread w) (id : Nat)
    (change : Section methods → Section methods) : Store methods Thread w :=
  { s with history := s.history.map fun e => if e.id = id then change e else e }

/-- A section is opened. -/
def opens (s : Store methods Thread w) (id : Nat) (op : methods.Op) : Store methods Thread w :=
  { s with history := s.history ++ [⟨id, op, s.content, s.content, none, []⟩] }

variable [DecidableEq Thread]

/-- A method is called. -/
def calls (s : Store methods Thread w) (t : Thread) (op : methods.Op) (sync : State Thread w) :
    Store methods Thread w :=
  { s with
    sync := sync
    running := Function.update s.running t (some ⟨op, methods.body op⟩)
    events := s.events ++ [.called s.sync.nextCall op] }

/-- The body of a method ends. -/
def ends (s : Store methods Thread w) (t : Thread) (id : Nat)
    (outcome : Outcome methods.Result) (sync : State Thread w) : Store methods Thread w :=
  let ended : Store methods Thread w :=
    { s with
      sync := sync
      running := Function.update s.running t none
      events := s.events ++ [.ended id outcome] }
  ended.record id fun e => { e with outcome := some outcome }

/-- One action. -/
def step (kind : Kind) (s : Store methods Thread w) :
    StoreAction methods Thread → Option (Store methods Thread w)
  | .read t op => (s.sync.step kind (.read t (methods.readMethod op))).map (s.calls t (.read op))
  | .write t op =>
      (s.sync.step kind (.write t (methods.writeMethod op))).map (s.calls t (.write op))
  | .step t =>
      (s.sync.step kind (.step t)).map fun sync =>
        match (sync.pc t).opened, s.running t with
        | some id, some call => { s with sync := sync }.opens id call.op
        | _, _ => { s with sync := sync }
  | .access t =>
      match (s.sync.pc t).opened, s.running t with
      | some id, some call =>
          (call.rest.step s.content).map fun (after, rest) =>
            { s with
              content := after
              running := Function.update s.running t (some ⟨call.op, rest⟩) }.record id
                fun e => { e with finish := after }
      | _, _ => none
  | .leave t =>
      match s.running t with
      | some ⟨_, .done outcome⟩ =>
          match s.sync.pc t with
          | .reading call _ =>
              (call.method.hands outcome).bind fun returned =>
                (s.sync.step kind (.leaveRead t returned)).map (s.ends t call.id outcome)
          | .writing call =>
              (call.method.hands outcome).bind fun returned =>
                (s.sync.step kind (.leaveWrite t returned)).map (s.ends t call.id outcome)
          | _ => none
      | _ => none
  | .look t id =>
      if ∃ guard ∈ s.sync.readGuards, guard.id = id ∧ guard.holder = t then
        some (s.record id fun e => { e with uses := e.uses ++ [(s.content, s.content)] })
      else none
  | .use t id change =>
      if ∃ guard ∈ s.sync.writeGuards, guard.id = id ∧ guard.holder = t then
        some ({ s with content := change s.content }.record id fun e =>
          { e with
            finish := change s.content
            uses := e.uses ++ [(s.content, change s.content)] })
      else none
  | .dropRead t id => (s.sync.step kind (.dropRead t id)).map fun sync => { s with sync := sync }
  | .dropWrite t id => (s.sync.step kind (.dropWrite t id)).map fun sync => { s with sync := sync }
  | .send id receiver =>
      (s.sync.step kind (.send id receiver)).map fun sync => { s with sync := sync }

end Store

/-- A container of the given kind with its content. -/
def store (kind : Kind) {C : Type} (methods : Interface C) (Thread : Type) [DecidableEq Thread]
    (w : Nat) (content : C) : System (Store methods Thread w) (StoreAction methods Thread) :=
  .ofFunction (.new methods Thread w content) (Store.step kind)

namespace Store

variable {C Thread : Type} [DecidableEq Thread] {methods : Interface C} {w : Nat}
variable {kind : Kind} {s next : Store methods Thread w} {action : StoreAction methods Thread}

/-- The effects of one step, by what happens to the content and the record. -/
inductive Moves (kind : Kind) (s : Store methods Thread w) :
    StoreAction methods Thread → Store methods Thread w → Prop where
  | read {t op sync} (move : State.Moves kind s.sync (.read t (methods.readMethod op)) sync) :
      Moves kind s (.read t op) (s.calls t (.read op) sync)
  | write {t op sync} (move : State.Moves kind s.sync (.write t (methods.writeMethod op)) sync) :
      Moves kind s (.write t op) (s.calls t (.write op) sync)
  | walk {t sync} (move : State.Moves kind s.sync (.step t) sync)
      (still : (sync.pc t).opened = none ∨ s.running t = none) :
      Moves kind s (.step t) { s with sync := sync }
  | opens {t sync id call} (move : State.Moves kind s.sync (.step t) sync)
      (opened : (sync.pc t).opened = some id) (running : s.running t = some call) :
      Moves kind s (.step t) ({ s with sync := sync }.opens id call.op)
  | access {t id call after rest} (here : (s.sync.pc t).opened = some id)
      (running : s.running t = some call)
      (accessed : call.rest.step s.content = some (after, rest)) :
      Moves kind s (.access t)
        ({ s with
          content := after
          running := Function.update s.running t (some ⟨call.op, rest⟩) }.record id
            fun e => { e with finish := after })
  | leaveRead {t op outcome call count returned sync} (here : s.sync.pc t = .reading call count)
      (running : s.running t = some ⟨op, .done outcome⟩)
      (hands : call.method.hands outcome = some returned)
      (move : State.Moves kind s.sync (.leaveRead t returned) sync) :
      Moves kind s (.leave t) (s.ends t call.id outcome sync)
  | leaveWrite {t op outcome call returned sync} (here : s.sync.pc t = .writing call)
      (running : s.running t = some ⟨op, .done outcome⟩)
      (hands : call.method.hands outcome = some returned)
      (move : State.Moves kind s.sync (.leaveWrite t returned) sync) :
      Moves kind s (.leave t) (s.ends t call.id outcome sync)
  | look {guard} (live : guard ∈ s.sync.readGuards) :
      Moves kind s (.look guard.holder guard.id)
        (s.record guard.id fun e => { e with uses := e.uses ++ [(s.content, s.content)] })
  | use {guard change} (live : guard ∈ s.sync.writeGuards) :
      Moves kind s (.use guard.holder guard.id change)
        ({ s with content := change s.content }.record guard.id fun e =>
          { e with
            finish := change s.content
            uses := e.uses ++ [(s.content, change s.content)] })
  | dropRead {t id sync} (move : State.Moves kind s.sync (.dropRead t id) sync) :
      Moves kind s (.dropRead t id) { s with sync := sync }
  | dropWrite {t id sync} (move : State.Moves kind s.sync (.dropWrite t id) sync) :
      Moves kind s (.dropWrite t id) { s with sync := sync }
  | send {id receiver sync} (move : State.Moves kind s.sync (.send id receiver) sync) :
      Moves kind s (.send id receiver) { s with sync := sync }

/-- Every step has one of the listed effects. -/
theorem moves_of_step (stepped : s.step kind action = some next) : Moves kind s action next := by
  cases action with
  | read t op =>
      obtain ⟨sync, below, rfl⟩ := Option.map_eq_some_iff.mp stepped
      exact .read (State.moves_of_step below)
  | write t op =>
      obtain ⟨sync, below, rfl⟩ := Option.map_eq_some_iff.mp stepped
      exact .write (State.moves_of_step below)
  | step t =>
      obtain ⟨sync, below, equal⟩ := Option.map_eq_some_iff.mp stepped
      have move := State.moves_of_step below
      split at equal
      case h_1 id call opened running => exact equal ▸ .opens move opened running
      case h_2 still =>
        refine equal ▸ .walk move ?_
        by_contra both
        push Not at both
        obtain ⟨opened, running⟩ := both
        obtain ⟨id, opened⟩ := Option.ne_none_iff_exists'.mp opened
        obtain ⟨call, running⟩ := Option.ne_none_iff_exists'.mp running
        exact still id call opened running
  | access t =>
      simp only [step] at stepped
      split at stepped
      case h_1 id call here running =>
        obtain ⟨⟨after, rest⟩, accessed, rfl⟩ := Option.map_eq_some_iff.mp stepped
        exact .access here running accessed
      case h_2 => cases stepped
  | leave t =>
      simp only [step] at stepped
      split at stepped
      case h_1 op outcome running =>
        split at stepped
        case h_1 call count here =>
          obtain ⟨returned, hands, stepped⟩ := Option.bind_eq_some_iff.mp stepped
          obtain ⟨sync, below, rfl⟩ := Option.map_eq_some_iff.mp stepped
          exact .leaveRead here running hands (State.moves_of_step below)
        case h_2 call here =>
          obtain ⟨returned, hands, stepped⟩ := Option.bind_eq_some_iff.mp stepped
          obtain ⟨sync, below, rfl⟩ := Option.map_eq_some_iff.mp stepped
          exact .leaveWrite here running hands (State.moves_of_step below)
        case h_3 => cases stepped
      case h_2 => cases stepped
  | look t id =>
      obtain ⟨⟨guard, live, rfl, rfl⟩, ⟨⟩⟩ := Option.ite_none_right_eq_some.mp stepped
      exact .look live
  | use t id change =>
      obtain ⟨⟨guard, live, rfl, rfl⟩, ⟨⟩⟩ := Option.ite_none_right_eq_some.mp stepped
      exact .use live
  | dropRead t id =>
      obtain ⟨sync, below, rfl⟩ := Option.map_eq_some_iff.mp stepped
      exact .dropRead (State.moves_of_step below)
  | dropWrite t id =>
      obtain ⟨sync, below, rfl⟩ := Option.map_eq_some_iff.mp stepped
      exact .dropWrite (State.moves_of_step below)
  | send id receiver =>
      obtain ⟨sync, below, rfl⟩ := Option.map_eq_some_iff.mp stepped
      exact .send (State.moves_of_step below)

end Store

end DarkStd.Sync
