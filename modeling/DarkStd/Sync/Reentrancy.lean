import DarkStd.Sync.Exclusion

/-!
# Reads while holding a guard

The documented rule forbids a write method while a guard is alive; a second
read is not forbidden, and `SyncVec::eq` makes one. `begin_read` backs off for
the flag of a writer without asking whether its own thread already has a
section open, and `begin_write` waits for that very section. So the second read
returns exactly when it has passed its load of the flag, or finds the flag down.
-/

namespace DarkStd.Sync

open DarkStd.Semantics

/-- In a read call that has not yet passed its load of the flag. -/
@[grind] def Pc.entering : Pc → Bool
  | .slot _ | .register _ | .push _ | .release _ _ | .add _ _ | .load _ _ | .backOff _ _ => true
  | _ => false

theorem Pc.entering_of_inRead {pc : Pc} (inRead : pc.inRead = true)
    (entry : pc.isReading = false) : pc.entering = true := by
  cases pc <;> simp_all [Pc.inRead, Pc.isReading, Pc.entering]

namespace State

variable {Thread : Type} {w : Nat}

/-- The thread holds a read guard or a read iterator. -/
def HoldsReadGuard (s : State Thread w) (t : Thread) : Prop :=
  ∃ guard ∈ s.readGuards, guard.holder = t

/-- The thread holds a guard or an iterator of either sort. -/
def HoldsGuard (s : State Thread w) (t : Thread) : Prop :=
  s.HoldsReadGuard t ∨ ∃ guard ∈ s.writeGuards, guard.holder = t

/-- The documented rule: no write method while a guard is alive. -/
def ObeysRule (s : State Thread w) : Action Thread → Prop
  | .write t _ => ¬ s.HoldsGuard t
  | _ => True

/-- The action leaves this guard with its holder. -/
def Keeps (guard : ReadGuard Thread) (action : Action Thread) : Prop :=
  action ≠ .dropRead guard.holder guard.id ∧ ∀ receiver, action ≠ .send guard.id receiver

/-- Under a lowered flag, whoever holds the registry lock is registering. -/
theorem holder_registers {s : State Thread w} (registered : s.Registered) (locked : s.Locked)
    (down : s.writing = false) {u : Thread} (owner : s.registryLock = some u) :
    (∃ call, s.pc u = .push call) ∨ ∃ call count, s.pc u = .release call count := by
  have owns := (registered.lock_iff u).mp owner
  have quiet : (s.pc u).raised = false := by
    by_contra raised
    rw [Bool.not_eq_false] at raised
    simp [locked.up_of_raised raised] at down
  cases here : s.pc u <;> simp_all [Pc.ownsRegistry, Pc.raised]

variable [DecidableEq Thread]

instance (s : State Thread w) (t : Thread) : Decidable (s.HoldsGuard t) :=
  inferInstanceAs (Decidable ((∃ guard ∈ s.readGuards, _) ∨ ∃ guard ∈ s.writeGuards, _))

instance (s : State Thread w) (action : Action Thread) : Decidable (s.ObeysRule action) :=
  match action with
  | .write t _ => inferInstanceAs (Decidable (¬ s.HoldsGuard t))
  | .read .. | .step .. | .leaveRead .. | .leaveWrite .. | .dropRead .. | .dropWrite ..
  | .send .. => inferInstanceAs (Decidable True)

/-- The runs of threads that obey the documented rule. -/
def ruled (kind : Kind) (Thread : Type) [DecidableEq Thread] (w : Nat) :
    System (State Thread w) (Action Thread) :=
  (container kind Thread w).restrict ObeysRule

/-- The running call of the guard's holder returns in some continuation in
which every thread obeys the rule and the guard stays where it is. -/
def MayReturn (kind : Kind) (s : State Thread w) (guard : ReadGuard Thread) : Prop :=
  ∃ next, ((ruled kind Thread w).restrict fun _ => Keeps guard).Continues s next ∧
    next.pc guard.holder = .idle

/-- No writer raises the flag against a holder that is entering a further read,
and no holder calls a further read while the flag is up. -/
def Spares (s : State Thread w) : Action Thread → Prop
  | .step t => ∀ call, s.pc t = .raise call →
      ∀ u, s.HoldsReadGuard u → (s.pc u).entering = false
  | .read t _ => s.HoldsReadGuard t → s.writing = false
  | _ => True

variable {kind : Kind} {s next : State Thread w} {action : Action Thread}
variable {guard : ReadGuard Thread}

/-- A kept guard stays alive. -/
theorem Moves.mem_of_keeps (move : Moves kind s action next) (keeps : Keeps guard action)
    (live : guard ∈ s.readGuards) : guard ∈ next.readGuards := by
  cases move with
  | @returnRead u call count returned here => exact List.mem_cons_of_mem _ live
  | @dropRead u dropped idle liveDropped held =>
      have other : guard ≠ dropped := by
        rintro rfl
        exact keeps.1 (held ▸ rfl)
      exact (List.mem_erase_of_ne other).mpr live
  | @send receiver sent idle liveSent =>
      have other : guard ≠ sent := by
        rintro rfl
        exact keeps.2 receiver rfl
      exact List.mem_cons_of_mem _ ((List.mem_erase_of_ne other).mpr live)
  | _ => exact live

section Stuck

/-- A flag that is up stays up as long as a read section is open: the writer that
would lower it waits for the section. -/
theorem Moves.up_of_open (move : Moves kind s action next) (drained : s.Drained)
    (isOpen : s.ReadSectionOpen) (up : s.writing = true) : next.writing = true := by
  cases move with
  | @lower u id here => exact absurd isOpen (drained.drained_closed u (by rw [here]; rfl))
  | raise here => rfl
  | _ => exact up

/-- A read that meets a raised flag does not get past its load. -/
theorem Moves.entering_of_up (move : Moves kind s action next) (up : s.writing = true)
    {t : Thread} (entering : (s.pc t).entering = true) : (next.pc t).entering = true := by
  cases move with
  | loadFalse here down => simp [up] at down
  | _ => grind

/-- The holder of a guard that reads again under a raised flag never returns. -/
theorem not_mayReturn_of_up (reachable : (container kind Thread w).Reachable s)
    (live : guard ∈ s.readGuards) (up : s.writing = true)
    (entering : (s.pc guard.holder).entering = true) : ¬ MayReturn kind s guard := by
  rintro ⟨last, continues, returned⟩
  have stuck : (container kind Thread w).Reachable last ∧ guard ∈ last.readGuards ∧
      last.writing = true ∧ (last.pc guard.holder).entering = true := by
    refine continues.preserves
      (fun s => (container kind Thread w).Reachable s ∧ guard ∈ s.readGuards ∧
        s.writing = true ∧ (s.pc guard.holder).entering = true) ?_ ⟨reachable, live, up, entering⟩
    rintro s action next ⟨reachable, live, up, entering⟩ ⟨keeps, -, stepped⟩
    have move := moves_of_step stepped
    exact ⟨.step reachable stepped, move.mem_of_keeps keeps live,
      move.up_of_open (drained_of_reachable reachable) (.inl (List.ne_nil_of_mem live)) up,
      move.entering_of_up up entering⟩
  have entering := stuck.2.2.2
  simp [returned, Pc.entering] at entering

end Stuck

section Returns

/-- How many atomic operations of its own a read still has before its load. -/
def entryRank : Pc → Nat
  | .slot _ => 7
  | .register _ => 6
  | .push _ => 5
  | .release _ _ => 4
  | .backOff _ _ => 3
  | .add _ _ => 2
  | .load _ _ => 1
  | _ => 0

/-- How many atomic operations a first read still has under the registry lock. -/
def lockRank : Pc → Nat
  | .push _ => 2
  | .release _ _ => 1
  | _ => 0

/-- The steps to a return of `begin_read` under a lowered flag, with those of
the thread it may have to wait for. -/
def readRank (s : State Thread w) (t : Thread) : Nat :=
  3 * entryRank (s.pc t) + s.registryLock.elim 0 fun u => lockRank (s.pc u)

/-- Only the registry lock can stop a read before its load. -/
theorem advance_of_entering {t : Thread} (entering : (s.pc t).entering = true)
    (free : ∀ call, s.pc t = .register call → s.registryLock = none) :
    ∃ next, s.advance t = some next := by
  unfold advance
  cases here : s.pc t with
  | slot call => cases s.slots t <;> exact ⟨_, rfl⟩
  | register call => exact ⟨_, if_pos (free call here)⟩
  | load call count => cases s.writing <;> exact ⟨_, rfl⟩
  | push _ | release _ _ | add _ _ | backOff _ _ => exact ⟨_, rfl⟩
  | _ => simp [here, Pc.entering] at entering

/-- A step of the read itself brings it closer to its load. -/
theorem Moves.readRank_lt_of_entering {t : Thread} (move : Moves kind s (.step t) next)
    (registered : s.Registered) (down : s.writing = false)
    (entering : (s.pc t).entering = true) :
    next.writing = false ∧ (next.pc t).inRead = true ∧ next.readRank t < s.readRank t := by
  have lock := registered.lock_iff t
  unfold readRank
  cases owner : s.registryLock <;> cases move <;> simp_all [Pc.entering] <;>
    grind [entryRank, lockRank]

/-- So does a step of the thread that holds the registry lock it waits for. -/
theorem Moves.readRank_lt_of_owner {t u : Thread} {call : ReadCall}
    (move : Moves kind s (.step u) next) (locked : s.Locked) (registered : s.Registered)
    (down : s.writing = false) (here : s.pc t = .register call)
    (owner : s.registryLock = some u) :
    next.writing = false ∧ (next.pc t).inRead = true ∧ next.readRank t < s.readRank t := by
  have other : t ≠ u := by
    rintro rfl
    have owns := (registered.lock_iff t).mp owner
    simp [here, Pc.ownsRegistry] at owns
  unfold readRank
  rcases holder_registers registered locked down owner with
    ⟨call', here'⟩ | ⟨call', count, here'⟩
  · cases move <;> simp_all [goto_pc, Pc.inRead, lockRank]
  · cases move <;> simp_all [goto_pc, Pc.inRead, lockRank]

/-- Under a lowered flag some step brings the read closer to its load. -/
theorem exists_step_of_entering (registered : s.Registered) (locked : s.Locked)
    (down : s.writing = false) {t : Thread} (entering : (s.pc t).entering = true) :
    ∃ u next, s.advance u = some next ∧ next.writing = false ∧
      (next.pc t).inRead = true ∧ next.readRank t < s.readRank t := by
  by_cases free : ∀ call, s.pc t = .register call → s.registryLock = none
  · obtain ⟨next, advanced⟩ := advance_of_entering entering free
    have move := moves_of_advance .vec advanced
    exact ⟨t, next, advanced, move.readRank_lt_of_entering registered down entering⟩
  · push Not at free
    obtain ⟨call, here, held⟩ := free
    obtain ⟨u, owner⟩ := Option.ne_none_iff_exists'.mp held
    obtain ⟨next, advanced⟩ : ∃ next, s.advance u = some next := by
      rcases holder_registers registered locked down owner with
        ⟨call', here'⟩ | ⟨call', count, here'⟩
      · exact advance_of_entering (by rw [here']; rfl) (by simp [here'])
      · exact advance_of_entering (by rw [here']; rfl) (by simp [here'])
    have move := moves_of_advance .vec advanced
    exact ⟨u, next, advanced, move.readRank_lt_of_owner locked registered down here owner⟩

theorem continues_of_step (action : Action Thread) (obeys : s.ObeysRule action)
    (keeps : Keeps guard action) (stepped : s.step kind action = some next) :
    ((ruled kind Thread w).restrict fun _ => Keeps guard).Continues s next := by
  have move : ((ruled kind Thread w).restrict fun _ => Keeps guard).Step s action next :=
    ⟨keeps, obeys, stepped⟩
  exact .single move

/-- A read that has passed its load returns. -/
theorem mayReturn_of_isReading (reading : (s.pc guard.holder).isReading = true) :
    MayReturn kind s guard := by
  cases here : s.pc guard.holder with
  | reading call count =>
      obtain ⟨returned, next, stepped⟩ := exists_leaveRead here
      have idle : next.pc guard.holder = .idle := by
        cases moves_of_step stepped <;> exact goto_pc_self ..
      exact ⟨next, continues_of_step (.leaveRead _ _) trivial ⟨by simp, by simp⟩ stepped, idle⟩
  | _ => simp [here, Pc.isReading] at reading

/-- A read that finds the flag down returns. -/
theorem mayReturn_of_down (reachable : (container kind Thread w).Reachable s)
    (down : s.writing = false) (inRead : (s.pc guard.holder).inRead = true) :
    MayReturn kind s guard := by
  have closer : ∀ s : State Thread w,
      ((container kind Thread w).Reachable s ∧ s.writing = false ∧
        (s.pc guard.holder).inRead = true) →
      ¬ (s.pc guard.holder).isReading = true →
      ∃ action next, ((ruled kind Thread w).restrict fun _ => Keeps guard).Step s action next ∧
        ((container kind Thread w).Reachable next ∧ next.writing = false ∧
          (next.pc guard.holder).inRead = true) ∧
        next.readRank guard.holder < s.readRank guard.holder := by
    rintro s ⟨reachable, down, inRead⟩ entry
    obtain ⟨u, next, advanced, down, inRead, closer⟩ :=
      exists_step_of_entering (registered_of_reachable reachable)
        (locked_of_reachable reachable) down (Pc.entering_of_inRead inRead (by simpa using entry))
    have stepped : (container kind Thread w).Step s (.step u) next := advanced
    exact ⟨.step u, next, ⟨⟨by simp, by simp⟩, trivial, stepped⟩,
      ⟨.step reachable stepped, down, inRead⟩, closer⟩
  obtain ⟨middle, continues, -, reading⟩ :=
    System.continues_of_rank Nat.lt_wfRel.wf (readRank · guard.holder) closer s
      ⟨reachable, down, inRead⟩
  have returns : MayReturn kind middle guard := mayReturn_of_isReading reading
  obtain ⟨last, rest, idle⟩ := returns
  exact ⟨last, continues.trans rest, idle⟩

end Returns

section Spared

/-- No holder is caught between its call and its load by a raised flag. -/
def Spared (s : State Thread w) : Prop :=
  ∀ t, s.HoldsReadGuard t → (s.pc t).entering = true → s.writing = false

/-- A thread comes to enter a read by calling it. -/
theorem Moves.entering_before (move : Moves kind s action next) {t : Thread}
    (entering : (next.pc t).entering = true) :
    (s.pc t).entering = true ∨ ∃ method, action = .read t method := by
  cases move with
  | @read u method idle =>
      by_cases actor : t = u
      · exact .inr ⟨method, actor ▸ rfl⟩
      · rw [goto_pc_of_ne _ _ _ _ actor] at entering
        exact .inl entering
  | _ => grind

/-- A thread that enters a read does not come by a guard meanwhile. -/
theorem Moves.holdsReadGuard_before (move : Moves kind s action next) {t : Thread}
    (entering : (next.pc t).entering = true) (holds : next.HoldsReadGuard t) :
    s.HoldsReadGuard t := by
  obtain ⟨guard, live, held⟩ := holds
  cases move with
  | @returnRead u call count returned here =>
      rcases List.mem_cons.mp live with rfl | live
      · subst held
        simp [Pc.entering] at entering
      · exact ⟨guard, live, held⟩
  | dropRead idle => exact ⟨guard, List.mem_of_mem_erase live, held⟩
  | @send receiver sent idle =>
      rcases List.mem_cons.mp live with rfl | live
      · subst held
        simp [idle, Pc.entering] at entering
      · exact ⟨guard, List.mem_of_mem_erase live, held⟩
  | _ => exact ⟨guard, live, held⟩

/-- Only `self.writing.store(true)` raises the flag. -/
theorem Moves.up_before (move : Moves kind s action next) (up : next.writing = true) :
    s.writing = true ∨ ∃ t call, action = .step t ∧ s.pc t = .raise call := by
  cases move with
  | @raise t call here => exact .inr ⟨t, call, rfl, here⟩
  | lower here => simp at up
  | _ => exact .inl up

theorem Spared.preserved (spared : s.Spared) (move : Moves kind s action next)
    (spares : s.Spares action) : next.Spared := by
  intro t holds entering
  have held := move.holdsReadGuard_before entering holds
  by_contra raised
  rcases move.up_before (by simpa using raised) with up | ⟨u, call, rfl, here⟩
  · rcases move.entering_before entering with before | ⟨method, rfl⟩
    · simp [spared t held before] at up
    · simp [spares held] at up
  · have entry := spares call here t held
    rcases move.entering_before entering with before | ⟨method, ⟨⟩⟩
    simp [before] at entry

end Spared

end State

open State

/-- A further read of a thread that holds a read guard, in a run of threads
that obey the documented rule, can return with the guard still held exactly
when the flag is down or the read has passed its load of it. So in the runs
whose steps all spare the holders of guards every such read can return. -/
theorem reentrant_read_returns_iff (kind : Kind) {Thread : Type} [DecidableEq Thread] {w : Nat} :
    (∀ (s : State Thread w) (guard : ReadGuard Thread), (ruled kind Thread w).Reachable s →
      guard ∈ s.readGuards → (s.pc guard.holder).inRead = true →
      (MayReturn kind s guard ↔
        s.writing = false ∨ (s.pc guard.holder).isReading = true)) ∧
    ∀ (s : State Thread w) (guard : ReadGuard Thread),
      ((ruled kind Thread w).restrict Spares).Reachable s →
      guard ∈ s.readGuards → (s.pc guard.holder).inRead = true → MayReturn kind s guard := by
  have exact_ (s : State Thread w) (guard : ReadGuard Thread)
      (reachable : (container kind Thread w).Reachable s) (live : guard ∈ s.readGuards)
      (inRead : (s.pc guard.holder).inRead = true) :
      MayReturn kind s guard ↔
        s.writing = false ∨ (s.pc guard.holder).isReading = true := by
    constructor
    · intro returns
      by_contra neither
      push Not at neither
      have entering := Pc.entering_of_inRead inRead (by simpa using neither.2)
      exact not_mayReturn_of_up reachable live (by simpa using neither.1) entering returns
    · rintro (down | reading)
      · exact mayReturn_of_down reachable down inRead
      · exact mayReturn_of_isReading reading
  refine ⟨fun s guard ruled => exact_ s guard ruled.of_restrict, ?_⟩
  intro s guard spared live inRead
  have holds : s.Spared := by
    refine spared.invariant Spared ?_ ?_
    · rintro _ rfl t ⟨guard, live, -⟩
      simp [State.new] at live
    · rintro s action next - spared ⟨spares, -, stepped⟩
      exact spared.preserved (moves_of_step stepped) spares
  refine (exact_ s guard spared.of_restrict.of_restrict live inRead).mpr ?_
  by_cases reading : (s.pc guard.holder).isReading = true
  · exact .inr reading
  · exact .inl (holds guard.holder ⟨guard, live, rfl⟩
      (Pc.entering_of_inRead inRead (by simpa using reading)))

/-- A `len` next to the guard of a `get`, with no writer around. -/
theorem reread_returns : ∃ s : State (Fin 2) 64,
    s.readGuards = [⟨0, .value, 0, 0⟩] ∧ s.pc 0 = .slot ⟨1, .len⟩ ∧
      MayReturn .vec s ⟨0, .value, 0, 0⟩ := by
  have run : System.execute (System.guarded (State.step .vec) ObeysRule) (.new (Fin 2) 64)
      [.read 0 .get, .step 0, .step 0, .step 0, .step 0, .step 0, .step 0,
        .leaveRead 0 (some .value), .read 0 .len] = some _ := rfl
  have reachable := System.reachable_of_execute_guarded run
  refine ⟨_, rfl, rfl, ((reentrant_read_returns_iff .vec).1 _ _ reachable ?_ rfl).mpr (.inl rfl)⟩
  exact List.mem_singleton_self _

/-- One thread keeps the guard of a `get`, another raises the flag in a `push`,
and the first calls `len`. -/
theorem exists_reread_under_writer : ∃ s : State (Fin 2) 64,
    (ruled .vec (Fin 2) 64).Reachable s ∧ s.readGuards = [⟨0, .value, 0, 0⟩] ∧
      s.pc 0 = .slot ⟨2, .len⟩ ∧ s.writing = true := by
  have run : System.execute (System.guarded (State.step .vec) ObeysRule) (.new (Fin 2) 64)
      [.read 0 .get, .step 0, .step 0, .step 0, .step 0, .step 0, .step 0,
        .leaveRead 0 (some .value), .write 1 .push, .step 1, .step 1, .read 0 .len] =
      some _ := rfl
  exact ⟨_, System.reachable_of_execute_guarded run, rfl, rfl, rfl⟩

/-- Reads of threads that obey the rule do deadlock. -/
theorem reentrant_read_may_hang : ¬ ∀ (s : State (Fin 2) 64) (guard : ReadGuard (Fin 2)),
    (ruled .vec (Fin 2) 64).Reachable s → guard ∈ s.readGuards →
      (s.pc guard.holder).inRead = true → MayReturn .vec s guard := by
  intro returns
  obtain ⟨s, reachable, guards, here, up⟩ := exists_reread_under_writer
  have live : ⟨0, .value, 0, 0⟩ ∈ s.readGuards := guards ▸ List.mem_singleton_self _
  exact not_mayReturn_of_up reachable.of_restrict live up (by rw [here]; rfl)
    (returns s _ reachable live (by rw [here]; rfl))

end DarkStd.Sync
