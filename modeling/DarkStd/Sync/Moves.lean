import DarkStd.Sync.Container

/-!
# What one step can do

`Moves` lists every effect a step of the container can have, with the point of
the code it starts from and the condition it met. `moves_of_step` is the only
place where the step function is unfolded; every invariant of the protocol is a
case analysis of `Moves`.
-/

namespace DarkStd.Sync.State

variable {Thread : Type} {w : Nat}

section Fields

variable (s : State Thread w) (count : Nat) (u : Thread)

@[simp, grind =] theorem fetchAdd_registry :
    (s.fetchAdd count).registry = s.registry.modify count (· + 1) := rfl
@[simp, grind =] theorem fetchAdd_write : (s.fetchAdd count).write = s.write := rfl
@[simp, grind =] theorem fetchAdd_writing : (s.fetchAdd count).writing = s.writing := rfl
@[simp, grind =] theorem fetchAdd_registryLock :
    (s.fetchAdd count).registryLock = s.registryLock := rfl
@[simp] theorem fetchAdd_slots : (s.fetchAdd count).slots = s.slots := rfl
@[grind =] theorem fetchAdd_slots_apply : (s.fetchAdd count).slots u = s.slots u := rfl
@[simp] theorem fetchAdd_pc : (s.fetchAdd count).pc = s.pc := rfl
@[grind =] theorem fetchAdd_pc_apply : (s.fetchAdd count).pc u = s.pc u := rfl
@[simp, grind =] theorem fetchAdd_readGuards :
    (s.fetchAdd count).readGuards = s.readGuards := rfl
@[simp, grind =] theorem fetchAdd_writeGuards :
    (s.fetchAdd count).writeGuards = s.writeGuards := rfl
@[simp, grind =] theorem fetchAdd_nextCall : (s.fetchAdd count).nextCall = s.nextCall := rfl

@[simp, grind =] theorem fetchSub_registry :
    (s.fetchSub count).registry = s.registry.modify count (· - 1) := rfl
@[simp, grind =] theorem fetchSub_write : (s.fetchSub count).write = s.write := rfl
@[simp, grind =] theorem fetchSub_writing : (s.fetchSub count).writing = s.writing := rfl
@[simp, grind =] theorem fetchSub_registryLock :
    (s.fetchSub count).registryLock = s.registryLock := rfl
@[simp] theorem fetchSub_slots : (s.fetchSub count).slots = s.slots := rfl
@[grind =] theorem fetchSub_slots_apply : (s.fetchSub count).slots u = s.slots u := rfl
@[simp] theorem fetchSub_pc : (s.fetchSub count).pc = s.pc := rfl
@[grind =] theorem fetchSub_pc_apply : (s.fetchSub count).pc u = s.pc u := rfl
@[simp, grind =] theorem fetchSub_readGuards :
    (s.fetchSub count).readGuards = s.readGuards := rfl
@[simp, grind =] theorem fetchSub_writeGuards :
    (s.fetchSub count).writeGuards = s.writeGuards := rfl
@[simp, grind =] theorem fetchSub_nextCall : (s.fetchSub count).nextCall = s.nextCall := rfl

variable [DecidableEq Thread] (t : Thread) (pc : Pc)

@[simp, grind =] theorem goto_write : (s.goto t pc).write = s.write := rfl
@[simp, grind =] theorem goto_writing : (s.goto t pc).writing = s.writing := rfl
@[simp, grind =] theorem goto_registry : (s.goto t pc).registry = s.registry := rfl
@[simp, grind =] theorem goto_registryLock : (s.goto t pc).registryLock = s.registryLock := rfl
@[simp] theorem goto_slots : (s.goto t pc).slots = s.slots := rfl
@[grind =] theorem goto_slots_apply : (s.goto t pc).slots u = s.slots u := rfl
@[simp, grind =] theorem goto_readGuards : (s.goto t pc).readGuards = s.readGuards := rfl
@[simp, grind =] theorem goto_writeGuards : (s.goto t pc).writeGuards = s.writeGuards := rfl
@[simp, grind =] theorem goto_nextCall : (s.goto t pc).nextCall = s.nextCall := rfl

@[grind =] theorem goto_pc : (s.goto t pc).pc u = if u = t then pc else s.pc u :=
  Function.update_apply ..

@[simp] theorem goto_pc_self : (s.goto t pc).pc t = pc := Function.update_self ..

theorem goto_pc_of_ne (different : u ≠ t) : (s.goto t pc).pc u = s.pc u :=
  Function.update_of_ne different ..

end Fields

variable [DecidableEq Thread]

/-- The effects of one step, by the atomic operation it performs. -/
inductive Moves (kind : Kind) (s : State Thread w) : Action Thread → State Thread w → Prop where
  | read {t method} (idle : s.pc t = .idle) (room : s.HasRoom t) :
      Moves kind s (.read t method)
        ({ s with nextCall := s.nextCall + 1 }.goto t (.slot ⟨s.nextCall, method⟩))
  | write {t method} (idle : s.pc t = .idle) (locks : kind.locks method = true) :
      Moves kind s (.write t method)
        ({ s with nextCall := s.nextCall + 1 }.goto t (.acquire ⟨s.nextCall, method⟩))
  | slotFound {t call count} (here : s.pc t = .slot call) (found : s.slots t = some count) :
      Moves kind s (.step t) (s.goto t (.add call count))
  | slotMissing {t call} (here : s.pc t = .slot call) (missing : s.slots t = none) :
      Moves kind s (.step t) (s.goto t (.register call))
  | register {t call} (here : s.pc t = .register call) (free : s.registryLock = none) :
      Moves kind s (.step t) ({ s with registryLock := some t }.goto t (.push call))
  | push {t call} (here : s.pc t = .push call) :
      Moves kind s (.step t)
        ({ s with
          registry := s.registry ++ [0]
          slots := Function.update s.slots t (some s.registry.length) }.goto t
            (.release call s.registry.length))
  | release {t call count} (here : s.pc t = .release call count) :
      Moves kind s (.step t) ({ s with registryLock := none }.goto t (.add call count))
  | add {t call count} (here : s.pc t = .add call count) :
      Moves kind s (.step t) ((s.fetchAdd count).goto t (.load call count))
  | loadTrue {t call count} (here : s.pc t = .load call count) (up : s.writing = true) :
      Moves kind s (.step t) (s.goto t (.backOff call count))
  | loadFalse {t call count} (here : s.pc t = .load call count) (down : s.writing = false) :
      Moves kind s (.step t) (s.goto t (.reading call count))
  | backOff {t call count} (here : s.pc t = .backOff call count) :
      Moves kind s (.step t) ((s.fetchSub count).goto t (.add call count))
  | acquire {t call} (here : s.pc t = .acquire call) (free : s.write = none) :
      Moves kind s (.step t) ({ s with write := some t }.goto t (.raise call))
  | raise {t call} (here : s.pc t = .raise call) :
      Moves kind s (.step t) ({ s with writing := true }.goto t (.scanLock call))
  | scanLock {t call} (here : s.pc t = .scanLock call) (free : s.registryLock = none) :
      Moves kind s (.step t) ({ s with registryLock := some t }.goto t (.scan call 0))
  | scanZero {t call next} (here : s.pc t = .scan call next)
      (zero : s.registry[next]? = some 0) :
      Moves kind s (.step t) (s.goto t (.scan call (next + 1)))
  | scanNonzero {t call next counter} (here : s.pc t = .scan call next)
      (loaded : s.registry[next]? = some counter) (nonzero : counter ≠ 0) :
      Moves kind s (.step t) (s.goto t (.scanned call false))
  | scanEnd {t call next} (here : s.pc t = .scan call next)
      (finished : s.registry[next]? = none) :
      Moves kind s (.step t) (s.goto t (.scanned call true))
  | rescan {t call} (here : s.pc t = .scanned call false) :
      Moves kind s (.step t) ({ s with registryLock := none }.goto t (.scanLock call))
  | enter {t call} (here : s.pc t = .scanned call true) :
      Moves kind s (.step t) ({ s with registryLock := none }.goto t (.writing call))
  | lower {t id} (here : s.pc t = .lower id) :
      Moves kind s (.step t) ({ s with writing := false }.goto t (.unlock id))
  | unlock {t id} (here : s.pc t = .unlock id) :
      Moves kind s (.step t) ({ s with write := none }.goto t .idle)
  | leaveRead {t call count} (here : s.pc t = .reading call count)
      (allowed : call.method.mayRelease = true) :
      Moves kind s (.leaveRead t none) ((s.fetchSub count).goto t .idle)
  | returnRead {t call count guard} (here : s.pc t = .reading call count)
      (allowed : call.method.handsOut = some guard) :
      Moves kind s (.leaveRead t (some guard))
        ({ s with readGuards := ⟨call.id, guard, count, t⟩ :: s.readGuards }.goto t .idle)
  | leaveWrite {t call} (here : s.pc t = .writing call)
      (allowed : call.method.mayRelease = true) :
      Moves kind s (.leaveWrite t none) (s.goto t (.lower call.id))
  | returnWrite {t call guard} (here : s.pc t = .writing call)
      (allowed : call.method.handsOut = some guard) :
      Moves kind s (.leaveWrite t (some guard))
        ({ s with writeGuards := ⟨call.id, guard, t⟩ :: s.writeGuards }.goto t .idle)
  | dropRead {t guard} (idle : s.pc t = .idle) (live : guard ∈ s.readGuards)
      (held : guard.holder = t) :
      Moves kind s (.dropRead t guard.id)
        ({ s with readGuards := s.readGuards.erase guard }.fetchSub guard.count)
  | dropWrite {t guard} (idle : s.pc t = .idle) (live : guard ∈ s.writeGuards)
      (held : guard.holder = t) :
      Moves kind s (.dropWrite t guard.id)
        ({ s with writeGuards := s.writeGuards.erase guard }.goto t (.lower guard.id))
  | send {receiver guard} (idle : s.pc receiver = .idle) (live : guard ∈ s.readGuards)
      (iterator : guard.kind = .iter) (sendable : kind.iterIsSend = true) :
      Moves kind s (.send guard.id receiver)
        { s with readGuards := { guard with holder := receiver } :: s.readGuards.erase guard }

/-- The step of a running call has one of the listed effects. -/
theorem moves_of_advance (kind : Kind) {s next : State Thread w} {t : Thread}
    (advanced : s.advance t = some next) : Moves kind s (.step t) next := by
  unfold advance at advanced
  split at advanced
  case h_1 call here =>
    split at advanced
    case h_1 count found => exact Option.some.inj advanced ▸ .slotFound here found
    case h_2 missing => exact Option.some.inj advanced ▸ .slotMissing here missing
  case h_2 call here =>
    obtain ⟨free, ⟨⟩⟩ := Option.ite_none_right_eq_some.mp advanced
    exact .register here free
  case h_3 call here => exact Option.some.inj advanced ▸ .push here
  case h_4 call count here => exact Option.some.inj advanced ▸ .release here
  case h_5 call count here => exact Option.some.inj advanced ▸ .add here
  case h_6 call count here =>
    split at advanced
    case isTrue up => exact Option.some.inj advanced ▸ .loadTrue here up
    case isFalse down =>
      exact Option.some.inj advanced ▸ .loadFalse here (Bool.not_eq_true _ ▸ down)
  case h_7 call count here => exact Option.some.inj advanced ▸ .backOff here
  case h_8 call here =>
    obtain ⟨free, ⟨⟩⟩ := Option.ite_none_right_eq_some.mp advanced
    exact .acquire here free
  case h_9 call here => exact Option.some.inj advanced ▸ .raise here
  case h_10 call here =>
    obtain ⟨free, ⟨⟩⟩ := Option.ite_none_right_eq_some.mp advanced
    exact .scanLock here free
  case h_11 call position here =>
    split at advanced
    case h_1 finished => exact Option.some.inj advanced ▸ .scanEnd here finished
    case h_2 counter loaded =>
      split at advanced
      case isTrue zero =>
        exact Option.some.inj advanced ▸ .scanZero here (zero ▸ loaded)
      case isFalse nonzero =>
        exact Option.some.inj advanced ▸ .scanNonzero here loaded nonzero
  case h_12 call allZero here =>
    cases allZero with
    | true => exact Option.some.inj advanced ▸ .enter here
    | false => exact Option.some.inj advanced ▸ .rescan here
  case h_13 id here => exact Option.some.inj advanced ▸ .lower here
  case h_14 id here => exact Option.some.inj advanced ▸ .unlock here
  all_goals cases advanced

/-- Every step has one of the listed effects. -/
theorem moves_of_step {kind : Kind} {s next : State Thread w} {action : Action Thread}
    (stepped : s.step kind action = some next) : Moves kind s action next := by
  cases action with
  | read t method =>
      obtain ⟨⟨idle, room⟩, ⟨⟩⟩ := Option.ite_none_right_eq_some.mp stepped
      exact .read idle room
  | write t method =>
      obtain ⟨⟨idle, locks⟩, ⟨⟩⟩ := Option.ite_none_right_eq_some.mp stepped
      exact .write idle locks
  | step t => exact moves_of_advance kind stepped
  | leaveRead t returned =>
      simp only [step] at stepped
      split at stepped
      case h_1 call count here =>
        obtain ⟨allowed, ⟨⟩⟩ := Option.ite_none_right_eq_some.mp stepped
        exact .leaveRead here allowed
      case h_2 call count guard here =>
        obtain ⟨allowed, ⟨⟩⟩ := Option.ite_none_right_eq_some.mp stepped
        exact .returnRead here allowed
      case h_3 => cases stepped
  | leaveWrite t returned =>
      simp only [step] at stepped
      split at stepped
      case h_1 call here =>
        obtain ⟨allowed, ⟨⟩⟩ := Option.ite_none_right_eq_some.mp stepped
        exact .leaveWrite here allowed
      case h_2 call guard here =>
        obtain ⟨allowed, ⟨⟩⟩ := Option.ite_none_right_eq_some.mp stepped
        exact .returnWrite here allowed
      case h_3 => cases stepped
  | dropRead t id =>
      simp only [step] at stepped
      split at stepped
      case h_1 guard found =>
        obtain ⟨idle, ⟨⟩⟩ := Option.ite_none_right_eq_some.mp stepped
        have matched := List.find?_some found
        obtain ⟨rfl, held⟩ := of_decide_eq_true matched
        exact .dropRead idle (List.mem_of_find?_eq_some found) held
      case h_2 => cases stepped
  | dropWrite t id =>
      simp only [step] at stepped
      split at stepped
      case h_1 guard found =>
        obtain ⟨idle, ⟨⟩⟩ := Option.ite_none_right_eq_some.mp stepped
        have matched := List.find?_some found
        obtain ⟨rfl, held⟩ := of_decide_eq_true matched
        exact .dropWrite idle (List.mem_of_find?_eq_some found) held
      case h_2 => cases stepped
  | send id receiver =>
      simp only [step] at stepped
      split at stepped
      case h_1 guard found =>
        obtain ⟨⟨sendable, idle⟩, ⟨⟩⟩ := Option.ite_none_right_eq_some.mp stepped
        have matched := List.find?_some found
        obtain ⟨rfl, iterator⟩ := of_decide_eq_true matched
        exact .send idle (List.mem_of_find?_eq_some found) iterator sendable
      case h_2 => cases stepped

/-- The body of a read method can always end. -/
theorem exists_leaveRead {kind : Kind} {s : State Thread w} {t : Thread} {call : ReadCall}
    {count : Nat} (here : s.pc t = .reading call count) :
    ∃ returned next, s.step kind (.leaveRead t returned) = some next := by
  cases handsOut : call.method.handsOut with
  | some guard => exact ⟨some guard, _, by simp only [step, here, handsOut, if_true]; rfl⟩
  | none =>
      have release : call.method.mayRelease = true := by
        cases method : call.method <;> simp_all [ReadMethod.handsOut, ReadMethod.mayRelease]
      exact ⟨none, _, by simp only [step, here, release, if_true]; rfl⟩

/-- The body of a write method can always end. -/
theorem exists_leaveWrite {kind : Kind} {s : State Thread w} {t : Thread} {call : WriteCall}
    (here : s.pc t = .writing call) :
    ∃ returned next, s.step kind (.leaveWrite t returned) = some next := by
  cases handsOut : call.method.handsOut with
  | some guard => exact ⟨some guard, _, by simp only [step, here, handsOut, if_true]; rfl⟩
  | none =>
      have release : call.method.mayRelease = true := by
        cases method : call.method <;> simp_all [WriteMethod.handsOut, WriteMethod.mayRelease]
      exact ⟨none, _, by simp only [step, here, release, if_true]; rfl⟩

/-- A holder that is not in a call can drop its guard. -/
theorem exists_dropRead {kind : Kind} {s : State Thread w} {guard : ReadGuard Thread}
    (live : guard ∈ s.readGuards) (idle : s.pc guard.holder = .idle) :
    ∃ next, s.step kind (.dropRead guard.holder guard.id) = some next := by
  have found : (s.readGuards.find?
      fun other => other.id = guard.id ∧ other.holder = guard.holder).isSome := by
    rw [List.find?_isSome]
    exact ⟨guard, live, by simp⟩
  obtain ⟨other, found⟩ := Option.isSome_iff_exists.mp found
  exact ⟨_, by simp only [step, found, idle, if_true]; rfl⟩

theorem exists_dropWrite {kind : Kind} {s : State Thread w} {guard : WriteGuard Thread}
    (live : guard ∈ s.writeGuards) (idle : s.pc guard.holder = .idle) :
    ∃ next, s.step kind (.dropWrite guard.holder guard.id) = some next := by
  have found : (s.writeGuards.find?
      fun other => other.id = guard.id ∧ other.holder = guard.holder).isSome := by
    rw [List.find?_isSome]
    exact ⟨guard, live, by simp⟩
  obtain ⟨other, found⟩ := Option.isSome_iff_exists.mp found
  exact ⟨_, by simp only [step, found, idle, if_true]; rfl⟩

end DarkStd.Sync.State
