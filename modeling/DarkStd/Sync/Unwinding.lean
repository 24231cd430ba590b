import DarkStd.Sync.Exclusion

/-!
# Reads that unwind

`get` and `contains` call the user's `Hash`, `Eq`, `Ord` or `PartialEq` between
`begin_read` and the `fetch_sub` or the guard. `count` is a plain reference, so
when that code panics nothing gives the slot back: it is as if a guard had been
returned that nobody can drop. `remembered` is the container with these guards,
and it runs as any other container does.
-/

namespace DarkStd.Sync

open DarkStd.Semantics

/-- The read methods whose body runs user code. `SyncVec::get` takes an index. -/
def ReadMethod.searches (kind : Kind) : ReadMethod → Bool
  | .get => kind ≠ .vec
  | .contains => true
  | .len | .isEmpty | .iter | .dirtyRef | .clone => false

/-- `slice::contains` with a `PartialEq` that may panic; `none` is the panic. -/
def containsBy {V : Type} (eq : V → V → Option Bool) (x : V) : List V → Option Bool
  | [] => some false
  | v :: rest =>
      match eq v x with
      | none => none
      | some true => some true
      | some false => containsBy eq x rest

/-- A container with its content. `forgotten` records the slots of the read
calls that have unwound. -/
structure Unwinding (Thread : Type) (w : Nat) (C : Type) where
  sync : State Thread w
  content : C
  forgotten : List (ReadGuard Thread)

/-- What may happen to a container whose user code may panic. -/
inductive UnwindingAction (Thread C : Type) where
  /-- Any step of the container, except the end of a search. -/
  | sync (action : Action Thread)
  /-- A writer changes the content. -/
  | update (thread : Thread) (change : C → C)
  /-- The body of `get` or `contains` ends: the lookup of the underlying
  collection has found something or not, or user code has panicked in it. -/
  | search (thread : Thread) (lookup : C → Option Bool)

namespace State

variable {Thread : Type} {w : Nat}

/-- The value of the thread's reader counter; before its first read, the zero
it will start from. -/
def counter (s : State Thread w) (t : Thread) : BitVec w :=
  ((s.slots t).bind fun count => s.registry[count]?).getD 0

/-- What the thread's counter counts beside its live guards. -/
def surplus (s : State Thread w) (t : Thread) : BitVec w :=
  s.counter t - BitVec.ofNat w (s.guardsOf t)

end State

namespace Unwinding

variable {Thread : Type} {w : Nat} {C : Type}

/-- A container just constructed. -/
def new (Thread : Type) (w : Nat) (content : C) : Unwinding Thread w C :=
  ⟨.new Thread w, content, []⟩

/-- The slots that unwound calls of the thread have left. -/
def leaked (s : Unwinding Thread w C) (t : Thread) : Nat :=
  (s.sync.slots t).elim 0 (guardsOn s.forgotten)

/-- The body that ends is not a search. -/
def SearchesNot (kind : Kind) (s : State Thread w) : Action Thread → Bool
  | .leaveRead t _ =>
      match s.pc t with
      | .reading call _ => !call.method.searches kind
      | _ => true
  | _ => true

/-- What a search returns to its caller. -/
def returned (method : ReadMethod) (found : Bool) : Option ReadKind :=
  if found then method.handsOut else none

/-- One more section fits in the counter of the thread, with the slots that were
left behind. -/
def HasRoom (s : Unwinding Thread w C) : Action Thread → Prop
  | .read t _ => s.sync.guardsOf t + s.leaked t + 1 < 2 ^ w
  | _ => True

instance (s : Unwinding Thread w C) (action : Action Thread) : Decidable (s.HasRoom action) :=
  match action with
  | .read t _ => inferInstanceAs (Decidable (s.sync.guardsOf t + s.leaked t + 1 < 2 ^ w))
  | .write .. | .step .. | .leaveRead .. | .leaveWrite .. | .dropRead .. | .dropWrite ..
  | .send .. => .isTrue trivial

variable [DecidableEq Thread]

/-- One action. -/
def step (kind : Kind) (s : Unwinding Thread w C) :
    UnwindingAction Thread C → Option (Unwinding Thread w C)
  | .sync action =>
      if SearchesNot kind s.sync action = true ∧ s.HasRoom action then
        (s.sync.step kind action).map fun next => { s with sync := next }
      else none
  | .update t change =>
      if (s.sync.pc t).isWriting = true ∨ ∃ guard ∈ s.sync.writeGuards, guard.holder = t then
        some { s with content := change s.content }
      else none
  | .search t lookup =>
      match s.sync.pc t with
      | .reading call count =>
          if call.method.searches kind then
            match lookup s.content with
            | some found =>
                (s.sync.step kind (.leaveRead t (returned call.method found))).map
                  fun next => { s with sync := next }
            | none =>
                -- The unwinding leaves the call, and `count` needs no drop.
                some { s with
                  sync := s.sync.goto t .idle
                  forgotten := ⟨call.id, .value, count, t⟩ :: s.forgotten }
          else none
      | _ => none

end Unwinding

/-- A container of the given kind whose user code may panic. -/
def unwinding (kind : Kind) (Thread : Type) [DecidableEq Thread] (w : Nat) {C : Type}
    (content : C) : System (Unwinding Thread w C) (UnwindingAction Thread C) :=
  .ofFunction (.new Thread w content) (Unwinding.step kind)

/-- Seen from the protocol, `contains` may as well be `get`. -/
def ReadCall.asGet (call : ReadCall) : ReadCall :=
  { call with method := if call.method = .contains then .get else call.method }

/-- The same point of the code, for `get` instead of `contains`. -/
def Pc.asGet : Pc → Pc
  | .slot call => .slot call.asGet
  | .register call => .register call.asGet
  | .push call => .push call.asGet
  | .release call count => .release call.asGet count
  | .add call count => .add call.asGet count
  | .load call count => .load call.asGet count
  | .backOff call count => .backOff call.asGet count
  | .reading call count => .reading call.asGet count
  | pc => pc

theorem ReadCall.mayRelease_asGet (call : ReadCall) :
    call.asGet.method.mayRelease = call.method.mayRelease := by
  cases method : call.method <;> simp [asGet, method, ReadMethod.mayRelease]

theorem ReadCall.handsOut_asGet {call : ReadCall} {guard : ReadKind}
    (allowed : call.method.handsOut = some guard) :
    call.asGet.method.handsOut = some guard := by
  cases method : call.method <;> simp_all [asGet, ReadMethod.handsOut]

theorem ReadCall.handsOut_of_searches {call : ReadCall} {kind : Kind}
    (searches : call.method.searches kind = true) :
    call.asGet.method.handsOut = some .value := by
  cases method : call.method <;> simp_all [asGet, ReadMethod.searches, ReadMethod.handsOut]

namespace Unwinding

variable {Thread : Type} {w : Nat} {C : Type}

/-- The container in which the slots left behind are those of guards that
nobody drops. -/
def remembered (s : Unwinding Thread w C) : State Thread w :=
  { s.sync with
    pc := fun t => (s.sync.pc t).asGet
    readGuards := s.sync.readGuards ++ s.forgotten }

theorem guardsOf_remembered (s : Unwinding Thread w C) (t : Thread) :
    s.remembered.guardsOf t = s.sync.guardsOf t + s.leaked t := by
  unfold State.guardsOf leaked remembered
  cases s.sync.slots t with
  | none => rfl
  | some count => exact List.countP_append ..

theorem remembered_pc {s : Unwinding Thread w C} {t : Thread} {pc : Pc} (here : s.sync.pc t = pc) :
    s.remembered.pc t = pc.asGet := congrArg Pc.asGet here

/-- The invariants do not depend on the order in which guards were made. -/
theorem sound_perm {s : State Thread w} {guards : List (ReadGuard Thread)} (sound : s.Sound)
    (perm : s.readGuards.Perm guards) :
    ({ s with readGuards := guards } : State Thread w).Sound := by
  obtain ⟨registered, accounted, locked, drained⟩ := sound
  have counts (count : Nat) : guardsOn guards count = guardsOn s.readGuards count :=
    (perm.countP_eq _).symm
  have open_iff : ({ s with readGuards := guards } : State Thread w).ReadSectionOpen ↔
      s.ReadSectionOpen := by
    have empty : guards = [] ↔ s.readGuards = [] :=
      ⟨fun none => (none ▸ perm).eq_nil, fun none => (none ▸ perm).symm.eq_nil⟩
    exact or_congr_left (not_congr empty)
  refine ⟨{ registered with }, ?_, { locked with }, ?_⟩
  · refine ⟨fun guard live => accounted.guard_lt guard (perm.mem_iff.mpr live), ?_, ?_⟩
    · intro t count slot
      rw [State.sections, counts]
      exact accounted.counter_eq t count slot
    · intro t
      have same : ({ s with readGuards := guards } : State Thread w).guardsOf t = s.guardsOf t := by
        unfold State.guardsOf
        cases s.slots t with
        | none => rfl
        | some count => exact counts count
      rw [same]
      exact accounted.sections_lt t
  · refine ⟨fun t call next here count below => ?_, fun t here => ?_, fun guarded => ?_⟩
    · rw [State.Quiet, counts]
      exact drained.scanned_quiet t call next here count below
    · rw [open_iff]
      exact drained.drained_closed t here
    · rw [open_iff]
      exact drained.guarded_closed guarded

/-- Outside the thread's calls its counter counts, beside its guards, the slots
it has left behind. -/
theorem surplus_eq_leaked {s : Unwinding Thread w C} (sound : s.remembered.Sound) {t : Thread}
    (idle : s.sync.pc t = .idle) : s.sync.surplus t = BitVec.ofNat w (s.leaked t) := by
  unfold State.surplus State.counter State.guardsOf leaked
  cases slot : s.sync.slots t with
  | none => simp
  | some count =>
      have counter := sound.accounted.counter_eq t count slot
      have sections : s.remembered.sections t count =
          guardsOn s.sync.readGuards count + guardsOn s.forgotten count := by
        rw [State.sections, remembered_pc idle]
        exact List.countP_append ..
      rw [sections] at counter
      have loaded : s.sync.registry[count]? = _ := counter
      rw [Option.bind_some, loaded, Option.getD_some, BitVec.ofNat_add]
      rw [Option.elim_some, Option.elim_some, BitVec.add_comm, BitVec.add_sub_cancel]

/-- After an unwinding no `begin_write` returns any more. -/
theorem no_writer_of_forgotten {s : Unwinding Thread w C} (sound : s.remembered.Sound)
    (left : s.forgotten ≠ []) (t : Thread) : ¬ s.sync.InWriteSection t := by
  intro inside
  have open_ : s.remembered.ReadSectionOpen := .inl (List.append_ne_nil_of_right_ne_nil _ left)
  refine sound.drained.closed (t := t) (inside.imp_left fun writing => ?_) open_
  cases here : s.sync.pc t <;> simp_all [remembered_pc here, Pc.asGet, Pc.inWriteSection]

variable [DecidableEq Thread]
variable {kind : Kind} {s next : Unwinding Thread w C} {action : UnwindingAction Thread C}

theorem remembered_goto (sync : State Thread w) (content : C)
    (forgotten : List (ReadGuard Thread)) (t : Thread) (pc : Pc) :
    remembered ⟨sync.goto t pc, content, forgotten⟩ =
      (remembered ⟨sync, content, forgotten⟩).goto t pc.asGet := by
  have pcs : (fun u => ((sync.goto t pc).pc u).asGet) =
      Function.update (fun u => (sync.pc u).asGet) t pc.asGet := by
    funext u
    rw [State.goto_pc, Function.update_apply]
    split <;> rfl
  exact congrArg (fun pcs => { remembered ⟨sync, content, forgotten⟩ with pc := pcs }) pcs

/-- Every step of the container is one of the container that remembers. -/
theorem remembered_moves {sync : State Thread w} {action : Action Thread}
    (room : s.HasRoom action) (move : State.Moves kind s.sync action sync) :
    ∃ again, State.Moves kind s.remembered again (remembered { s with sync := sync }) := by
  have pc {t : Thread} {here : Pc} : s.sync.pc t = here → s.remembered.pc t = here.asGet :=
    remembered_pc
  cases move with
  | @read t method idle =>
      refine ⟨.read t (ReadCall.asGet ⟨0, method⟩).method, ?_⟩
      have fits : s.remembered.HasRoom t := by
        rw [State.HasRoom, guardsOf_remembered]
        exact room
      rw [remembered_goto]
      exact .read (pc idle) fits
  | write idle locks =>
      rw [remembered_goto]
      exact ⟨_, .write (pc idle) locks⟩
  | slotFound here found =>
      rw [remembered_goto]
      exact ⟨_, .slotFound (pc here) found⟩
  | slotMissing here missing =>
      rw [remembered_goto]
      exact ⟨_, .slotMissing (pc here) missing⟩
  | register here free =>
      rw [remembered_goto]
      exact ⟨_, .register (pc here) free⟩
  | push here =>
      rw [remembered_goto]
      exact ⟨_, .push (pc here)⟩
  | release here =>
      rw [remembered_goto]
      exact ⟨_, .release (pc here)⟩
  | add here =>
      rw [remembered_goto]
      exact ⟨_, .add (pc here)⟩
  | loadTrue here up =>
      rw [remembered_goto]
      exact ⟨_, .loadTrue (pc here) up⟩
  | loadFalse here down =>
      rw [remembered_goto]
      exact ⟨_, .loadFalse (pc here) down⟩
  | backOff here =>
      rw [remembered_goto]
      exact ⟨_, .backOff (pc here)⟩
  | acquire here free =>
      rw [remembered_goto]
      exact ⟨_, .acquire (pc here) free⟩
  | raise here =>
      rw [remembered_goto]
      exact ⟨_, .raise (pc here)⟩
  | scanLock here free =>
      rw [remembered_goto]
      exact ⟨_, .scanLock (pc here) free⟩
  | scanZero here zero =>
      rw [remembered_goto]
      exact ⟨_, .scanZero (pc here) zero⟩
  | scanNonzero here loaded nonzero =>
      rw [remembered_goto]
      exact ⟨_, .scanNonzero (pc here) loaded nonzero⟩
  | scanEnd here finished =>
      rw [remembered_goto]
      exact ⟨_, .scanEnd (pc here) finished⟩
  | rescan here =>
      rw [remembered_goto]
      exact ⟨_, .rescan (pc here)⟩
  | enter here =>
      rw [remembered_goto]
      exact ⟨_, .enter (pc here)⟩
  | lower here =>
      rw [remembered_goto]
      exact ⟨_, .lower (pc here)⟩
  | unlock here =>
      rw [remembered_goto]
      exact ⟨_, .unlock (pc here)⟩
  | @leaveRead t call count here allowed =>
      rw [remembered_goto]
      exact ⟨_, .leaveRead (pc here) (call.mayRelease_asGet.trans allowed)⟩
  | @returnRead t call count guard here allowed =>
      have reading : s.remembered.pc t = .reading call.asGet count := pc here
      have again : State.Moves kind s.remembered (.leaveRead t (some guard)) _ :=
        .returnRead reading (ReadCall.handsOut_asGet allowed)
      rw [remembered_goto]
      exact ⟨_, again⟩
  | leaveWrite here allowed =>
      rw [remembered_goto]
      exact ⟨_, .leaveWrite (pc here) allowed⟩
  | returnWrite here allowed =>
      rw [remembered_goto]
      exact ⟨_, .returnWrite (pc here) allowed⟩
  | @dropRead t guard idle live held =>
      have erased : (s.sync.readGuards ++ s.forgotten).erase guard =
          s.sync.readGuards.erase guard ++ s.forgotten := List.erase_append_left _ live
      have again : State.Moves kind s.remembered (.dropRead t guard.id)
          ({ s.remembered with
            readGuards := (s.sync.readGuards ++ s.forgotten).erase guard }.fetchSub guard.count) :=
        .dropRead (pc idle) (List.mem_append_left _ live) held
      rw [erased] at again
      exact ⟨_, again⟩
  | dropWrite idle live held =>
      rw [remembered_goto]
      exact ⟨_, .dropWrite (pc idle) live held⟩
  | @send receiver guard idle live iterator sendable =>
      have erased : (s.sync.readGuards ++ s.forgotten).erase guard =
          s.sync.readGuards.erase guard ++ s.forgotten := List.erase_append_left _ live
      have again : State.Moves kind s.remembered (.send guard.id receiver)
          { s.remembered with readGuards :=
            { guard with holder := receiver } :: (s.sync.readGuards ++ s.forgotten).erase guard } :=
        .send (pc idle) (List.mem_append_left _ live) iterator sendable
      rw [erased] at again
      exact ⟨_, again⟩

/-- The steps that a user can see, by what they do to the container. -/
inductive Moves (kind : Kind) (s : Unwinding Thread w C) :
    UnwindingAction Thread C → Unwinding Thread w C → Prop where
  | sync {below sync} (room : s.HasRoom below) (move : State.Moves kind s.sync below sync) :
      Moves kind s (.sync below) { s with sync := sync }
  | update {t change} (inside : s.sync.InWriteSection t) :
      Moves kind s (.update t change) { s with content := change s.content }
  | found {t lookup found guard sync} (result : lookup s.content = some found)
      (move : State.Moves kind s.sync (.leaveRead t guard) sync) :
      Moves kind s (.search t lookup) { s with sync := sync }
  | unwind {t lookup call count} (here : s.sync.pc t = .reading call count)
      (searches : call.method.searches kind = true) (panic : lookup s.content = none) :
      Moves kind s (.search t lookup)
        { s with
          sync := s.sync.goto t .idle
          forgotten := ⟨call.id, .value, count, t⟩ :: s.forgotten }

/-- Every step has one of the listed effects. -/
theorem moves_of_step (stepped : s.step kind action = some next) : Moves kind s action next := by
  cases action with
  | sync action =>
      obtain ⟨⟨-, room⟩, stepped⟩ := Option.ite_none_right_eq_some.mp stepped
      obtain ⟨sync, below, rfl⟩ := Option.map_eq_some_iff.mp stepped
      exact .sync room (State.moves_of_step below)
  | update t change =>
      obtain ⟨inside, ⟨⟩⟩ := Option.ite_none_right_eq_some.mp stepped
      refine .update (inside.imp_left fun writing => ?_)
      cases here : s.sync.pc t <;> simp_all [Pc.isWriting, Pc.inWriteSection]
  | search t lookup =>
      simp only [step] at stepped
      split at stepped
      case h_1 call count here =>
        obtain ⟨searches, stepped⟩ := Option.ite_none_right_eq_some.mp stepped
        split at stepped
        case h_1 found result =>
          obtain ⟨sync, below, rfl⟩ := Option.map_eq_some_iff.mp stepped
          exact .found result (State.moves_of_step below)
        case h_2 panic => exact Option.some.inj stepped ▸ .unwind here searches panic
      case h_2 => cases stepped

theorem Moves.sound (move : Moves kind s action next) (sound : s.remembered.Sound) :
    next.remembered.Sound := by
  cases move with
  | sync room move =>
      obtain ⟨_, again⟩ := remembered_moves room move
      exact sound.preserved again
  | update inside => exact sound
  | @found t _ _ guard _ _ move =>
      have room : s.HasRoom (.leaveRead t guard) := trivial
      obtain ⟨_, again⟩ := remembered_moves room move
      exact sound.preserved again
  | @unwind t lookup call count here searches panic =>
      -- The slot is kept as if `get` had returned a guard.
      have reading : s.remembered.pc t = .reading call.asGet count := remembered_pc here
      have again : State.Moves kind s.remembered (.leaveRead t (some .value)) _ :=
        .returnRead reading (ReadCall.handsOut_of_searches searches)
      rw [remembered_goto]
      exact sound_perm (sound.preserved again) List.perm_middle.symm

theorem sound_of_reachable {content : C}
    (reachable : (unwinding kind Thread w content).Reachable s) : s.remembered.Sound := by
  refine reachable.invariant (fun s : Unwinding Thread w C => s.remembered.Sound) ?_
    fun _ _ _ _ sound stepped => (moves_of_step stepped).sound sound
  rintro _ rfl
  have same : remembered (.new Thread w content) = State.new Thread w := rfl
  rw [same]
  exact .new

/-- Nothing gives a slot back that was left behind. -/
theorem Moves.leaked (move : Moves kind s action next) (sound : s.remembered.Sound) {t : Thread}
    (other : ∀ lookup, action ≠ .search t lookup) : next.leaked t = s.leaked t := by
  have below (sync : State Thread w) {action : Action Thread}
      (move : State.Moves kind s.sync action sync) :
      Unwinding.leaked { s with sync := sync } t = s.leaked t := by
    rcases move.slots_eq with ⟨slots, -⟩ | ⟨u, call, -, here, slots, -⟩
    · rw [Unwinding.leaked, slots]
      rfl
    · rw [Unwinding.leaked, slots, Unwinding.leaked]
      split
      case isFalse => rfl
      case isTrue pusher =>
        subst pusher
        have missing : s.sync.slots t = none :=
          sound.registered.unregistered_slot t (by rw [remembered_pc here]; rfl)
        rw [missing, Option.elim_some, Option.elim_none, guardsOn_eq_zero]
        intro guard forgotten
        exact Nat.ne_of_lt (sound.accounted.guard_lt guard (List.mem_append_right _ forgotten))
  cases move with
  | sync room move => exact below _ move
  | update inside => rfl
  | found _ move => exact below _ move
  | @unwind u lookup call count here searches panic =>
      have mine : s.sync.slots u = some count :=
        sound.registered.pointer_slot u count (by rw [remembered_pc here]; rfl)
      have different : t ≠ u := fun same => other lookup (by rw [same])
      unfold Unwinding.leaked
      rw [State.goto_slots]
      cases slot : s.sync.slots t with
      | none => rfl
      | some position =>
          have apart : count ≠ position := fun same =>
            different (sound.registered.slot_injective t u count (same ▸ slot) mine)
          rw [Option.elim_some, Option.elim_some, guardsOn_cons, if_neg apart]
          rfl

/-- What is left behind stays. -/
theorem Moves.forgotten (move : Moves kind s action next) (left : s.forgotten ≠ []) :
    next.forgotten ≠ [] := by
  cases move with
  | unwind => simp
  | _ => exact left

/-- Until the thread's own search ends, it leaves no slot behind. -/
theorem leaked_of_steps {content : C} {actions : List (UnwindingAction Thread C)} {t : Thread}
    (run : (unwinding kind Thread w content).Steps s actions next)
    (reachable : (unwinding kind Thread w content).Reachable s)
    (same : ∀ lookup, .search t lookup ∉ actions) : next.leaked t = s.leaked t := by
  induction run with
  | refl => rfl
  | @step actions middle action last prior stepped inductionHypothesis =>
      have sound := sound_of_reachable (prior.reachable reachable)
      have other : ∀ lookup, action ≠ .search t lookup := fun lookup searched =>
        same lookup (by simp [searched])
      rw [(moves_of_step stepped).leaked sound other]
      exact inductionHypothesis fun lookup member => same lookup (List.mem_append_left _ member)

/-- A search that unwinds leaves its slot behind. -/
theorem leaked_of_unwind (sound : s.remembered.Sound) {t : Thread} {lookup : C → Option Bool}
    (stepped : s.step kind (.search t lookup) = some next) (panic : lookup s.content = none) :
    next.leaked t = s.leaked t + 1 ∧ next.sync.pc t = .idle ∧ next.forgotten ≠ [] := by
  cases moves_of_step stepped with
  | found result => simp [panic] at result
  | @unwind _ _ call count here =>
      have mine : s.sync.slots t = some count :=
        sound.registered.pointer_slot t count (by rw [remembered_pc here]; rfl)
      refine ⟨?_, State.goto_pc_self .., by simp⟩
      unfold leaked
      rw [State.goto_slots, mine, Option.elim_some, Option.elim_some, guardsOn_cons, if_pos rfl]

end Unwinding

open Unwinding

/-- No search that unwinds gives its slot back. Take any call of `get` or
`contains`, from the call to the panic, with any steps of other threads in
between: the thread's counter counts one section more than before the call, and
from then on no `begin_write` of any thread returns. -/
theorem unwound_search_keeps_slot {kind : Kind} {Thread : Type} [DecidableEq Thread] {w : Nat}
    {C : Type} {content : C} {before inside last : Unwinding Thread w C}
    {actions : List (UnwindingAction Thread C)} {t : Thread} {method : ReadMethod}
    {lookup : C → Option Bool}
    (reachable : (unwinding kind Thread w content).Reachable before)
    (run : (unwinding kind Thread w content).Steps before
      (.sync (.read t method) :: actions) inside)
    (same : ∀ lookup, .search t lookup ∉ actions)
    (unwound : (unwinding kind Thread w content).Step inside (.search t lookup) last)
    (panic : lookup inside.content = none) :
    last.sync.surplus t = before.sync.surplus t + 1 ∧
      last.sync.surplus t ≠ before.sync.surplus t ∧
      ∀ later, (unwinding kind Thread w content).Continues last later →
        ∀ u, ¬ later.sync.InWriteSection u := by
  obtain ⟨called, call, run⟩ := run.of_cons
  have start := sound_of_reachable reachable
  have running := run.reachable (reachable.step call)
  have sound := sound_of_reachable (running.step unwound)
  obtain ⟨⟨-, room⟩, called_eq⟩ := Option.ite_none_right_eq_some.mp call
  obtain ⟨sync, below, rfl⟩ := Option.map_eq_some_iff.mp called_eq
  have move := State.moves_of_step below
  have idle : before.sync.pc t = .idle := by
    cases move with
    | read idle => exact idle
  have call_leaked : Unwinding.leaked { before with sync := sync } t = before.leaked t :=
    (Moves.sync room move).leaked start fun _ => by simp
  have run_leaked := leaked_of_steps run (reachable.step call) same
  have last_leaked := leaked_of_unwind (sound_of_reachable running) unwound panic
  have before_surplus := surplus_eq_leaked start idle
  have last_surplus := surplus_eq_leaked sound last_leaked.2.1
  have more : last.sync.surplus t = before.sync.surplus t + 1 := by
    rw [last_surplus, last_leaked.1, run_leaked, call_leaked, before_surplus, BitVec.ofNat_add]
    rfl
  refine ⟨more, fun restored => ?_, fun later continues u => ?_⟩
  · -- A slot that is one more than itself would need `usize` to have no bits.
    have wide : 1 < 2 ^ w := Nat.lt_of_le_of_lt (Nat.le_add_left ..) room
    have one : BitVec.ofNat w 1 = BitVec.ofNat w 0 := by
      rw [more] at restored
      simpa using restored
    have one := congrArg BitVec.toNat one
    rw [BitVec.toNat_ofNat, BitVec.toNat_ofNat, Nat.mod_eq_of_lt wide, Nat.zero_mod] at one
    cases one
  · obtain ⟨_, steps⟩ := continues
    have left := steps.preserves (fun s => s.forgotten ≠ [])
      (fun _ _ _ left stepped => (moves_of_step stepped).forgotten left) last_leaked.2.2
    have later_sound := sound_of_reachable (steps.reachable (running.step unwound))
    exact no_writer_of_forgotten later_sound left u

/-- `contains(&5)` by a thread, up to the body of `contains`. -/
def containsCall {Thread : Type} (t : Thread) : List (UnwindingAction Thread (List Nat)) :=
  [.read t .contains, .step t, .step t, .step t, .step t, .step t, .step t].map .sync

/-- The body of `contains(&5)` when `PartialEq` panics. -/
def panickingSearch {Thread : Type} (t : Thread) : UnwindingAction Thread (List Nat) :=
  .search t (containsBy (fun _ _ => none) 5)

/-- `contains(&5)` on a vector of one element whose `PartialEq` panics. -/
theorem panicking_contains_keeps_slot : ∃ before last : Unwinding (Fin 2) 64 (List Nat),
    last.sync.surplus 0 = before.sync.surplus 0 + 1 ∧
      ∀ later, (unwinding .vec (Fin 2) 64 [1]).Continues last later →
        ∀ u, ¬ later.sync.InWriteSection u := by
  obtain ⟨inside, run, met⟩ := System.exists_steps_of_execute
    (fun s : Unwinding (Fin 2) 64 (List Nat) =>
      (s.step .vec (panickingSearch 0)).isSome && s.content == [1])
    (show (System.execute (step .vec) (.new (Fin 2) 64 [1]) (containsCall 0)).any _ = true by
      decide +kernel)
  obtain ⟨ends, content⟩ := Bool.and_eq_true_iff.mp met
  obtain ⟨last, unwound⟩ := Option.isSome_iff_exists.mp ends
  have panic : containsBy (fun _ _ => none) 5 inside.content = none := by
    rw [eq_of_beq content]
    rfl
  have start : (unwinding .vec (Fin 2) 64 [1]).Reachable (.new (Fin 2) 64 [1]) := .initial rfl
  obtain ⟨more, -, blocked⟩ := unwound_search_keeps_slot start run (by simp) unwound panic
  exact ⟨_, last, more, blocked⟩

/-- The same call, seen from outside: the counter of the thread is not what it
was before, and no later `begin_write` can complete its scan. -/
theorem panicking_contains_blocks_writers : ∃ last : Unwinding (Fin 2) 64 (List Nat),
    (unwinding .vec (Fin 2) 64 [1]).Steps (.new (Fin 2) 64 [1])
      (containsCall 0 ++ [panickingSearch 0]) last ∧
    last.sync.counter 0 ≠ (Unwinding.new (Fin 2) 64 [1]).sync.counter 0 ∧
    ¬ ∃ later u, (unwinding .vec (Fin 2) 64 [1]).Continues last later ∧
      later.sync.InWriteSection u := by
  obtain ⟨last, run, met⟩ := System.exists_steps_of_execute
    (fun s : Unwinding (Fin 2) 64 (List Nat) =>
      s.sync.counter 0 == 1 && !s.forgotten.isEmpty)
    (show (System.execute (step .vec) (.new (Fin 2) 64 [1])
      (containsCall 0 ++ [panickingSearch 0])).any _ = true by decide +kernel)
  obtain ⟨counter, left⟩ := Bool.and_eq_true_iff.mp met
  have left : last.forgotten ≠ [] := by simpa using left
  have steps : (unwinding .vec (Fin 2) 64 [1]).Steps (.new (Fin 2) 64 [1]) _ last := run
  refine ⟨last, steps, ?_, fun ⟨later, u, ⟨_, rest⟩, inside⟩ => ?_⟩
  · rw [eq_of_beq counter]
    decide
  · have still := rest.preserves (fun s => s.forgotten ≠ [])
      (fun _ _ _ left stepped => (moves_of_step stepped).forgotten left) left
    exact no_writer_of_forgotten
      (sound_of_reachable (rest.reachable (steps.reachable (.initial rfl)))) still u inside

end DarkStd.Sync
