import DarkStd.Sync.Content

/-!
# Which sections are open

A section has the id of its call. It is opened by a step of `begin_read` or
`begin_write`, stays open while the method runs, and then as long as the guard
that the method has returned.
-/

namespace DarkStd.Sync

open DarkStd.Semantics

namespace Pc

/-- The running call, as long as its section has not been left. -/
def call : Pc → Option Nat
  | .slot call | .register call | .push call | .release call _ | .add call _ | .load call _
  | .backOff call _ | .reading call _ => some call.id
  | .acquire call | .raise call | .scanLock call | .scan call _ | .scanned call _
  | .writing call => some call.id
  | .idle | .lower _ | .unlock _ => none

theorem call_of_opened {pc : Pc} {id : Nat} (opened : pc.opened = some id) : pc.call = some id := by
  cases pc <;> simp_all [Pc.opened, Pc.call]

end Pc

namespace State

variable {Thread : Type} {w : Nat}

/-- Calls that run and guards that are alive have different ids. -/
structure Identified (s : State Thread w) : Prop where
  call_lt : ∀ t id, (s.pc t).call = some id → id < s.nextCall
  call_injective : ∀ t u id, (s.pc t).call = some id → (s.pc u).call = some id → t = u
  readGuard_lt : ∀ guard ∈ s.readGuards, guard.id < s.nextCall
  writeGuard_lt : ∀ guard ∈ s.writeGuards, guard.id < s.nextCall
  readGuard_ne : ∀ t id, (s.pc t).call = some id → ∀ guard ∈ s.readGuards, guard.id ≠ id
  writeGuard_ne : ∀ t id, (s.pc t).call = some id → ∀ guard ∈ s.writeGuards, guard.id ≠ id

theorem Identified.new : (State.new Thread w).Identified := by
  constructor <;> simp [State.new, Pc.call]

/-- A read section with the id is open. -/
def OpenRead (s : State Thread w) (id : Nat) : Prop :=
  (∃ t call count, s.pc t = .reading call count ∧ call.id = id) ∨
    ∃ guard ∈ s.readGuards, guard.id = id

/-- A write section with the id is open, and the drop of its lock has not begun. -/
def OpenWrite (s : State Thread w) (id : Nat) : Prop :=
  (∃ t call, s.pc t = .writing call ∧ call.id = id) ∨ ∃ guard ∈ s.writeGuards, guard.id = id

theorem OpenRead.readSectionOpen {s : State Thread w} {id : Nat} (isOpen : s.OpenRead id) :
    s.ReadSectionOpen := by
  rcases isOpen with ⟨t, call, count, here, -⟩ | ⟨guard, live, -⟩
  · exact .inr ⟨t, by rw [here]; rfl⟩
  · exact .inl (List.ne_nil_of_mem live)

theorem OpenWrite.inWriteSection {s : State Thread w} {id : Nat} (isOpen : s.OpenWrite id) :
    ∃ t, s.InWriteSection t := by
  rcases isOpen with ⟨t, call, here, -⟩ | ⟨guard, live, -⟩
  · exact ⟨t, .inl (by rw [here]; rfl)⟩
  · exact ⟨guard.holder, .inr ⟨guard, live, rfl⟩⟩

/-- While a write section is open the flag is up. -/
theorem OpenWrite.up {s : State Thread w} {id : Nat} (isOpen : s.OpenWrite id)
    (locked : s.Locked) : s.writing = true := by
  rcases isOpen with ⟨t, call, here, -⟩ | ⟨guard, live, -⟩
  · exact locked.up_of_raised (by rw [here]; rfl)
  · exact locked.flag_guard (List.ne_nil_of_mem live)

/-- At most one write section is open. -/
theorem OpenWrite.unique {s : State Thread w} {id other : Nat} (left : s.OpenWrite id)
    (right : s.OpenWrite other) (locked : s.Locked) : id = other := by
  rcases left with ⟨t, call, here, rfl⟩ | ⟨guard, live, rfl⟩
  · have owns : (s.pc t).ownsWrite = true := by rw [here]; rfl
    rcases right with ⟨u, call', here', rfl⟩ | ⟨guard, live, -⟩
    · have same : t = u := locked.owner_unique (.inl owns) (.inl (by rw [here']; rfl))
      subst same
      cases here.symm.trans here'
      rfl
    · exact absurd (locked.guards_exclude t owns) (List.ne_nil_of_mem live)
  · rcases right with ⟨u, call', here', rfl⟩ | ⟨guard', live', rfl⟩
    · exact absurd (locked.guards_exclude u (by rw [here']; rfl)) (List.ne_nil_of_mem live)
    · rw [locked.guards_eq_singleton live, List.mem_singleton] at live'
      rw [live']

variable [DecidableEq Thread]
variable {kind : Kind} {s next : State Thread w} {action : Action Thread}

/-- A call goes on, or it has just been made, under a new id. -/
theorem Moves.call_of_next (move : Moves kind s action next) {u : Thread} {id : Nat}
    (call : (next.pc u).call = some id) :
    (s.pc u).call = some id ∨
      (id = s.nextCall ∧ next.nextCall = s.nextCall + 1 ∧ ∀ v, v ≠ u → next.pc v = s.pc v) := by
  cases move with
  | @read t method idle | @write t method idle =>
      by_cases actor : u = t
      · subst actor
        rw [goto_pc_self] at call
        refine .inr ⟨(Option.some.inj call).symm, rfl, fun v other => goto_pc_of_ne _ _ _ _ other⟩
      · rw [goto_pc_of_ne _ _ _ _ actor] at call
        exact .inl call
  | dropRead | send => exact .inl call
  | @enter t | @rescan t | @scanEnd t | @scanZero t | @scanNonzero t | @slotFound t | @slotMissing t
  | @register t | @push t | @release t | @add t | @loadTrue t | @loadFalse t | @backOff t
  | @acquire t | @raise t | @scanLock t | @lower t | @unlock t | @leaveRead t | @returnRead t
  | @leaveWrite t | @returnWrite t | @dropWrite t =>
      left
      by_cases actor : u = t
      · subst actor
        simp_all [Pc.call]
      · rwa [goto_pc_of_ne _ _ _ _ actor] at call

theorem Moves.nextCall_le (move : Moves kind s action next) : s.nextCall ≤ next.nextCall := by
  cases move with
  | read | write => exact Nat.le_succ _
  | _ => exact Nat.le_refl _

/-- A read guard was there before, or a call that has just ended returned it. -/
theorem Moves.readGuard_of_next (move : Moves kind s action next) {guard : ReadGuard Thread}
    (live : guard ∈ next.readGuards) :
    (∃ old ∈ s.readGuards, old.id = guard.id) ∨
      ∃ t call count, s.pc t = .reading call count ∧ guard.id = call.id ∧
        (next.pc t).call = none := by
  cases move with
  | @returnRead t call count returned here =>
      rcases List.mem_cons.mp live with rfl | live
      · exact .inr ⟨t, call, count, here, rfl, by rw [goto_pc_self]; rfl⟩
      · exact .inl ⟨guard, live, rfl⟩
  | dropRead => exact .inl ⟨guard, List.mem_of_mem_erase live, rfl⟩
  | @send receiver sent idle liveSent =>
      rcases List.mem_cons.mp live with rfl | live
      · exact .inl ⟨sent, liveSent, rfl⟩
      · exact .inl ⟨guard, List.mem_of_mem_erase live, rfl⟩
  | _ => exact .inl ⟨guard, live, rfl⟩

/-- So was a write guard. -/
theorem Moves.writeGuard_of_next (move : Moves kind s action next) {guard : WriteGuard Thread}
    (live : guard ∈ next.writeGuards) :
    guard ∈ s.writeGuards ∨
      ∃ t call, s.pc t = .writing call ∧ guard.id = call.id ∧ (next.pc t).call = none := by
  cases move with
  | @returnWrite t call returned here =>
      rcases List.mem_cons.mp live with rfl | live
      · exact .inr ⟨t, call, here, rfl, by rw [goto_pc_self]; rfl⟩
      · exact .inl live
  | dropWrite => exact .inl (List.mem_of_mem_erase live)
  | _ => exact .inl live

namespace Identified

variable (identified : s.Identified)
include identified

theorem call_lt_preserved (move : Moves kind s action next) (t : Thread) (id : Nat)
    (call : (next.pc t).call = some id) : id < next.nextCall := by
  rcases move.call_of_next call with call | ⟨rfl, more, -⟩
  · exact Nat.lt_of_lt_of_le (identified.call_lt t id call) move.nextCall_le
  · rw [more]
    exact Nat.lt_succ_self _

theorem call_injective_preserved (move : Moves kind s action next) (t u : Thread) (id : Nat)
    (left : (next.pc t).call = some id) (right : (next.pc u).call = some id) : t = u := by
  have fresh (v : Thread) (old : (s.pc v).call = some s.nextCall) : False :=
    Nat.lt_irrefl _ (identified.call_lt v _ old)
  rcases move.call_of_next left with before | ⟨rfl, -, others⟩
  · rcases move.call_of_next right with before' | ⟨rfl, -, -⟩
    · exact identified.call_injective t u id before before'
    · exact (fresh t before).elim
  · by_contra different
    rw [others u (Ne.symm different)] at right
    exact fresh u right

theorem readGuard_lt_preserved (move : Moves kind s action next) (guard : ReadGuard Thread)
    (live : guard ∈ next.readGuards) : guard.id < next.nextCall := by
  refine Nat.lt_of_lt_of_le ?_ move.nextCall_le
  rcases move.readGuard_of_next live with ⟨old, live, same⟩ | ⟨t, call, count, here, same, -⟩
  · exact same ▸ identified.readGuard_lt old live
  · exact same ▸ identified.call_lt t call.id (by rw [here]; rfl)

theorem writeGuard_lt_preserved (move : Moves kind s action next) (guard : WriteGuard Thread)
    (live : guard ∈ next.writeGuards) : guard.id < next.nextCall := by
  refine Nat.lt_of_lt_of_le ?_ move.nextCall_le
  rcases move.writeGuard_of_next live with live | ⟨t, call, here, same, -⟩
  · exact identified.writeGuard_lt guard live
  · exact same ▸ identified.call_lt t call.id (by rw [here]; rfl)

theorem readGuard_ne_preserved (move : Moves kind s action next) (t : Thread) (id : Nat)
    (call : (next.pc t).call = some id) (guard : ReadGuard Thread)
    (live : guard ∈ next.readGuards) : guard.id ≠ id := by
  rintro rfl
  rcases move.readGuard_of_next live with ⟨old, live, same⟩ | ⟨u, ended, count, here, same, left⟩
  · rcases move.call_of_next call with before | ⟨new, -, -⟩
    · exact identified.readGuard_ne t _ before old live same
    · exact Nat.ne_of_lt (identified.readGuard_lt old live) (same.trans new)
  · have mine : (s.pc u).call = some guard.id := by rw [here, same]; rfl
    rcases move.call_of_next call with before | ⟨new, -, -⟩
    · rw [identified.call_injective t u _ before mine, left] at call
      cases call
    · exact Nat.ne_of_lt (identified.call_lt u _ mine) new

theorem writeGuard_ne_preserved (move : Moves kind s action next) (t : Thread) (id : Nat)
    (call : (next.pc t).call = some id) (guard : WriteGuard Thread)
    (live : guard ∈ next.writeGuards) : guard.id ≠ id := by
  rintro rfl
  rcases move.writeGuard_of_next live with live | ⟨u, ended, here, same, left⟩
  · rcases move.call_of_next call with before | ⟨new, -, -⟩
    · exact identified.writeGuard_ne t _ before guard live rfl
    · exact Nat.ne_of_lt (identified.writeGuard_lt guard live) new
  · have mine : (s.pc u).call = some guard.id := by rw [here, same]; rfl
    rcases move.call_of_next call with before | ⟨new, -, -⟩
    · rw [identified.call_injective t u _ before mine, left] at call
      cases call
    · exact Nat.ne_of_lt (identified.call_lt u _ mine) new

theorem preserved (move : Moves kind s action next) : next.Identified where
  call_lt := identified.call_lt_preserved move
  call_injective := identified.call_injective_preserved move
  readGuard_lt := identified.readGuard_lt_preserved move
  writeGuard_lt := identified.writeGuard_lt_preserved move
  readGuard_ne := identified.readGuard_ne_preserved move
  writeGuard_ne := identified.writeGuard_ne_preserved move

end Identified

theorem identified_of_reachable (reachable : (container kind Thread w).Reachable s) :
    s.Identified :=
  reachable.invariant Identified (fun _ start => start ▸ .new)
    fun _ _ _ _ identified move => identified.preserved (moves_of_step move)

/-- A section was open before, or the step has opened it. -/
theorem Moves.opened_of_next (move : Moves kind s action next) {u : Thread} {id : Nat}
    (opened : (next.pc u).opened = some id) :
    next.pc u = s.pc u ∨
      (action = .step u ∧ (s.pc u).opened = none ∧ (s.pc u).call = some id ∧
        (s.writing = false ∨ (s.pc u).drained = true)) := by
  cases move with
  | dropRead | send => exact .inl rfl
  | @loadFalse t call count here down =>
      by_cases actor : u = t
      · subst actor
        rw [goto_pc_self] at opened
        exact .inr ⟨rfl, by rw [here]; rfl, by rw [here]; exact opened, .inl down⟩
      · exact .inl (goto_pc_of_ne _ _ _ _ actor)
  | @enter t call here =>
      by_cases actor : u = t
      · subst actor
        rw [goto_pc_self] at opened
        exact .inr ⟨rfl, by rw [here]; rfl, by rw [here]; exact opened, .inr (by rw [here]; rfl)⟩
      · exact .inl (goto_pc_of_ne _ _ _ _ actor)
  | @read t | @write t | @rescan t | @scanEnd t | @scanZero t | @scanNonzero t | @slotFound t
  | @slotMissing t | @register t | @push t | @release t | @add t | @loadTrue t | @backOff t
  | @acquire t | @raise t | @scanLock t | @lower t | @unlock t | @leaveRead t | @returnRead t
  | @leaveWrite t | @returnWrite t | @dropWrite t =>
      by_cases actor : u = t
      · subst actor
        simp [Pc.opened] at opened
      · exact .inl (goto_pc_of_ne _ _ _ _ actor)

/-- A section that has been opened stays open until its call ends. -/
theorem Moves.opened_stays (move : Moves kind s action next) {u : Thread}
    (opened : (s.pc u).opened ≠ none) :
    next.pc u = s.pc u ∨ ((next.pc u).call = none ∧
      ((∃ returned, action = .leaveRead u returned) ∨
        ∃ returned, action = .leaveWrite u returned)) := by
  cases move with
  | dropRead | send => exact .inl rfl
  | @leaveRead t | @returnRead t =>
      by_cases actor : u = t
      · subst actor
        rw [goto_pc_self]
        exact .inr ⟨rfl, .inl ⟨_, rfl⟩⟩
      · exact .inl (goto_pc_of_ne _ _ _ _ actor)
  | @leaveWrite t | @returnWrite t =>
      by_cases actor : u = t
      · subst actor
        rw [goto_pc_self]
        exact .inr ⟨rfl, .inr ⟨_, rfl⟩⟩
      · exact .inl (goto_pc_of_ne _ _ _ _ actor)
  | @read t | @write t | @loadFalse t | @enter t | @rescan t | @scanEnd t | @scanZero t
  | @scanNonzero t | @slotFound t | @slotMissing t | @register t | @push t | @release t | @add t
  | @loadTrue t | @backOff t | @acquire t | @raise t | @scanLock t | @lower t | @unlock t
  | @dropWrite t =>
      by_cases actor : u = t
      · subst actor
        simp_all [Pc.opened]
      · exact .inl (goto_pc_of_ne _ _ _ _ actor)

/-- A call stays the call of a read or of a write. -/
theorem Moves.inRead_of_next (move : Moves kind s action next) {u : Thread} {id : Nat}
    (before : (s.pc u).call = some id) (call : (next.pc u).call = some id) :
    (next.pc u).inRead = (s.pc u).inRead := by
  cases move with
  | dropRead | send => rfl
  | @read t | @write t | @loadFalse t | @enter t | @rescan t | @scanEnd t | @scanZero t
  | @scanNonzero t | @slotFound t | @slotMissing t | @register t | @push t | @release t | @add t
  | @loadTrue t | @backOff t | @acquire t | @raise t | @scanLock t | @lower t | @unlock t
  | @leaveRead t | @returnRead t | @leaveWrite t | @returnWrite t | @dropWrite t =>
      by_cases actor : u = t
      · subst actor
        simp_all [Pc.call, Pc.inRead]
      · exact congrArg Pc.inRead (goto_pc_of_ne _ _ _ _ actor)

/-- An open section takes no step of the protocol. -/
theorem Moves.closed_of_step {t : Thread} (move : Moves kind s (.step t) next) :
    (s.pc t).opened = none := by
  cases move <;> simp_all [Pc.opened]

/-- A step that is not a call makes none. -/
theorem Moves.call_of_old (move : Moves kind s action next) (old : next.nextCall = s.nextCall)
    {u : Thread} {id : Nat} (call : (next.pc u).call = some id) : (s.pc u).call = some id := by
  rcases move.call_of_next call with before | ⟨-, more, -⟩
  · exact before
  · omega

theorem Moves.call_of_step {t : Thread} (move : Moves kind s (.step t) next) {u : Thread} {id : Nat}
    (call : (next.pc u).call = some id) : (s.pc u).call = some id :=
  move.call_of_old (by cases move <;> rfl) call

/-- A section that is not open after a step of its call was not open before. -/
theorem Moves.closed_of_next (move : Moves kind s action next) {u : Thread} {id : Nat}
    (call : (next.pc u).call = some id) (closed : (next.pc u).opened = none) :
    (s.pc u).opened = none := by
  by_contra opened
  rcases move.opened_stays opened with same | ⟨left, -⟩
  · exact opened (same ▸ closed)
  · cases left.symm.trans call

/-- A section that is opened is the only one, if it is a writer's. -/
theorem Moves.not_openWrite (move : Moves kind s action next) (locked : s.Locked) {u : Thread}
    {id other : Nat} (opened : (next.pc u).opened = some id) (closed : (s.pc u).opened = none) :
    ¬ s.OpenWrite other := by
  intro isOpen
  rcases move.opened_of_next opened with same | ⟨-, -, -, down | drained⟩
  · cases (same ▸ opened).symm.trans closed
  · cases down.symm.trans (isOpen.up locked)
  · have owns : (s.pc u).ownsWrite = true := by
      cases here : s.pc u <;> simp_all [Pc.drained, Pc.ownsWrite]
    rcases isOpen with ⟨v, call, here, -⟩ | ⟨guard, live, -⟩
    · have same : v = u := locked.owner_unique (.inl (by rw [here]; rfl)) (.inl owns)
      subst same
      rw [here] at closed
      cases closed
    · exact absurd (locked.guards_exclude u owns) (List.ne_nil_of_mem live)

/-- A read section that the step has not opened was open before. -/
theorem Moves.openRead_of_next (move : Moves kind s action next) {id : Nat}
    (isOpen : next.OpenRead id) : s.OpenRead id ∨
      ∃ u, action = .step u ∧ (next.pc u).opened = some id ∧ (s.pc u).opened = none ∧
        (next.pc u).inRead = true := by
  rcases isOpen with ⟨u, call, count, here, rfl⟩ | ⟨guard, live, rfl⟩
  · have opened : (next.pc u).opened = some call.id := by rw [here]; rfl
    rcases move.opened_of_next opened with same | ⟨acts, closed, before, -⟩
    · exact .inl (.inl ⟨u, call, count, same ▸ here, rfl⟩)
    · exact .inr ⟨u, acts, opened, closed, by rw [here]; rfl⟩
  · rcases move.readGuard_of_next live with ⟨old, live, same⟩ | ⟨u, call, count, here, same, -⟩
    · exact .inl (.inr ⟨old, live, same⟩)
    · exact .inl (.inl ⟨u, call, count, here, same.symm⟩)

/-- So was a write section. -/
theorem Moves.openWrite_of_next (move : Moves kind s action next) {id : Nat}
    (isOpen : next.OpenWrite id) : s.OpenWrite id ∨
      ∃ u, action = .step u ∧ (next.pc u).opened = some id ∧ (s.pc u).opened = none ∧
        (next.pc u).inRead = false := by
  rcases isOpen with ⟨u, call, here, rfl⟩ | ⟨guard, live, rfl⟩
  · have opened : (next.pc u).opened = some call.id := by rw [here]; rfl
    rcases move.opened_of_next opened with same | ⟨acts, closed, before, -⟩
    · exact .inl (.inl ⟨u, call, same ▸ here, rfl⟩)
    · exact .inr ⟨u, acts, opened, closed, by rw [here]; rfl⟩
  · rcases move.writeGuard_of_next live with live | ⟨u, call, here, same, -⟩
    · exact .inl (.inr ⟨guard, live, rfl⟩)
    · exact .inl (.inl ⟨u, call, here, same.symm⟩)

end State

end DarkStd.Sync
