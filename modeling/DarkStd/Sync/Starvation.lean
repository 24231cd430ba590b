import DarkStd.Semantics.Infinite
import DarkStd.Sync.Quiescence
import DarkStd.Sync.Solo

/-!
# Who waits for whom

With the flag down a reader opens its section in a few steps of its own,
whatever the others do; with the flag up nobody opens one. So writers go first:
a reader can be overtaken for ever by writers that come one after another, and
a writer and a reader that both take steps can keep each other in `begin_write`
and in `begin_read` for ever, although no section is open.
-/

namespace DarkStd.Sync

open DarkStd.Semantics

/-- Between the call of a write method and the return of its `begin_write`. -/
def Pc.beginsWrite : Pc → Bool
  | .acquire _ | .raise _ | .scanLock _ | .scan _ _ | .scanned _ _ => true
  | _ => false

/-- The steps that `begin_read` has still to take, if it never sees the flag. -/
def Pc.toRead (registered : Bool) : Pc → Nat
  | .slot _ => if registered then 3 else 6
  | .register _ => 5
  | .push _ => 4
  | .release _ _ | .backOff _ _ => 3
  | .add _ _ => 2
  | .load _ _ => 1
  | _ => 0

namespace State

variable {Thread : Type} {w : Nat}

/-- The thread has called a read method and `begin_read` has not returned. -/
def BeginsRead (s : State Thread w) (t : Thread) (id : Nat) : Prop :=
  (s.pc t).call = some id ∧ (s.pc t).inRead = true ∧ (s.pc t).opened = none

/-- The thread has called a write method and `begin_write` has not returned. -/
def BeginsWrite (s : State Thread w) (t : Thread) (id : Nat) : Prop :=
  (s.pc t).call = some id ∧ (s.pc t).beginsWrite = true

/-- The steps that the `begin_read` of a thread has still to take. -/
def toRead (s : State Thread w) (t : Thread) : Nat := (s.pc t).toRead (s.slots t).isSome

variable [DecidableEq Thread]
variable {kind : Kind} {s next : State Thread w} {action : Action Thread} {t : Thread} {id : Nat}

/-- A `begin_read` that has not returned has just been called, or it had not
returned before. -/
theorem Moves.beginsRead_of_next (move : Moves kind s action next)
    (begins : next.BeginsRead t id) : s.BeginsRead t id ∨ id = s.nextCall := by
  obtain ⟨call, reads, closed⟩ := begins
  rcases move.call_of_next call with before | ⟨new, -⟩
  · refine .inl ⟨before, ?_, ?_⟩
    · exact (move.inRead_of_next before call) ▸ reads
    · exact move.closed_of_next call closed
  · exact .inr new

/-- The thread itself can only go on with its `begin_read`. -/
theorem Moves.eq_step_of_beginsRead (move : Moves kind s action next) (begins : s.BeginsRead t id)
    (mine : action.thread = t) : action = .step t := by
  obtain ⟨-, reads, closed⟩ := begins
  subst mine
  cases move <;> simp_all [Pc.inRead, Pc.opened]

/-- With the flag up, `begin_read` does not return. -/
theorem Moves.beginsRead_stays (move : Moves kind s action next) (up : s.writing = true)
    (begins : s.BeginsRead t id) : next.BeginsRead t id := by
  by_cases mine : action.thread = t
  · obtain rfl := move.eq_step_of_beginsRead begins mine
    unfold BeginsRead at begins ⊢
    cases move <;> simp_all [Pc.call, Pc.inRead, Pc.opened]
  · unfold BeginsRead
    rw [move.pc_of_ne (Ne.symm mine)]
    exact begins

/-- With the flag up, no read section is opened. -/
theorem Moves.openRead_of_up (move : Moves kind s action next) (up : s.writing = true)
    (isOpen : next.OpenRead id) : s.OpenRead id := by
  rcases move.openRead_of_next isOpen with before | ⟨u, -, opened, closed, reads⟩
  · exact before
  · rcases move.opened_of_next opened with same | ⟨-, -, call, down | drained⟩
    · cases (same ▸ opened).symm.trans closed
    · cases down.symm.trans up
    · have before : (s.pc u).inRead = true :=
        (move.inRead_of_next call (Pc.call_of_opened opened)) ▸ reads
      cases here : s.pc u <;> simp_all [Pc.inRead, Pc.drained]

/-- With the flag down, each step that a thread takes in `begin_read` brings it
nearer to its section, and the others do not set it back. -/
theorem Moves.toRead_le (move : Moves kind s action next) (down : s.writing = false)
    (begins : s.BeginsRead t id) (still : next.BeginsRead t id) :
    next.toRead t + [action].count (.step t) ≤ s.toRead t := by
  by_cases mine : action.thread = t
  · obtain rfl := move.eq_step_of_beginsRead begins mine
    rw [List.count_singleton_self]
    unfold BeginsRead at begins still
    unfold toRead
    cases move <;> simp_all [Pc.call, Pc.inRead, Pc.opened, Pc.toRead]
  · have other : action ≠ .step t := by
      rintro rfl
      exact mine rfl
    have slots : next.slots t = s.slots t := by
      rcases move.slots_eq with ⟨same, -⟩ | ⟨u, call, rfl, -, slots, -⟩
      · rw [same]
      · exact (slots t).trans (if_neg (Ne.symm mine))
    rw [List.count_singleton, beq_false_of_ne other, toRead, move.pc_of_ne (Ne.symm mine), slots]
    exact Nat.le_refl _

/-- A thread in `begin_read` is held up by nothing but the lock of the registry. -/
theorem advance_eq_none_iff (begins : s.BeginsRead t id) :
    s.advance t = none ↔ (∃ call, s.pc t = .register call) ∧ s.registryLock ≠ none := by
  obtain ⟨-, reads, closed⟩ := begins
  unfold advance
  cases here : s.pc t with
  | slot call => cases s.slots t <;> simp
  | load call count => cases s.writing <;> simp
  | register call => simp
  | _ => simp_all [Pc.inRead, Pc.opened]

omit [DecidableEq Thread] in
theorem toRead_pos (begins : s.BeginsRead t id) : 0 < s.toRead t := by
  obtain ⟨-, reads, closed⟩ := begins
  unfold toRead
  cases here : s.pc t with
  | slot call => cases s.slots t <;> simp [Pc.toRead]
  | _ => simp_all [Pc.inRead, Pc.opened, Pc.toRead]

omit [DecidableEq Thread] in
theorem toRead_bound (registered : s.Registered) :
    s.toRead t ≤ if (s.slots t).isSome then 3 else 6 := by
  unfold toRead
  cases here : s.pc t with
  | slot call => cases s.slots t <;> simp [Pc.toRead]
  | register call | push call =>
      have none : s.slots t = none := registered.unregistered_slot t (by rw [here]; rfl)
      simp [none, Pc.toRead]
  | _ => split <;> simp [Pc.toRead]

end State

section Flag

variable {Thread : Type} [DecidableEq Thread] {w : Nat} {kind : Kind}
variable {s last : State Thread w} {actions : List (Action Thread)}

open State

/-- While the flag is up nobody gets into a read section: the sections that a
writer waits for are among those that were open when it raised the flag, and
whoever was in `begin_read` stays there. -/
theorem flag_keeps_readers_out
    (steps : ((container kind Thread w).restrict fun now _ => now.writing = true).Steps s actions
      last) :
    (∀ id, last.OpenRead id → s.OpenRead id) ∧
      ∀ t id, s.BeginsRead t id → last.BeginsRead t id := by
  induction steps with
  | refl => exact ⟨fun _ => id, fun _ _ => id⟩
  | step prior taken inductionHypothesis =>
      obtain ⟨up, stepped⟩ := taken
      have move := moves_of_step stepped
      obtain ⟨open_before, begins_before⟩ := inductionHypothesis
      exact ⟨fun id isOpen => open_before id (move.openRead_of_up up isOpen),
        fun t id begins => move.beginsRead_stays up (begins_before t id begins)⟩

/-- A reader that keeps trying while a writer is at its scan. -/
theorem spinning_reader_kept_out :
    ∃ s last : State (Fin 2) 64, s.BeginsRead 1 0 ∧
      ((container .vec (Fin 2) 64).restrict fun now _ => now.writing = true).Steps s
        [.step 1, .step 1, .step 1, .step 1] last ∧ last.BeginsRead 1 0 := by
  let s : State (Fin 2) 64 := ({ State.new (Fin 2) 64 with
    write := some 0, writing := true, registry := [0],
    slots := fun t => if t = 1 then some 0 else none,
    nextCall := 2 }.goto 0 (.scanLock ⟨1, .push⟩)).goto 1 (.add ⟨0, .len⟩ 0)
  obtain ⟨last, ran, -⟩ := (Option.any_eq_true (fun _ => true) _).mp
    (show (System.execute (System.guarded (State.step .vec) fun now _ => now.writing = true) s
      [.step 1, .step 1, .step 1, .step 1]).any (fun _ => true) = true by decide +kernel)
  have steps : ((container .vec (Fin 2) 64).restrict fun now _ => now.writing = true).Steps s
      [.step 1, .step 1, .step 1, .step 1] last := System.steps_of_execute_guarded ran
  have begins : s.BeginsRead 1 0 := ⟨rfl, rfl, rfl⟩
  exact ⟨s, last, begins, steps, (flag_keeps_readers_out steps).2 1 0 begins⟩

/-- The own steps of a thread in `begin_read` count down while the flag is down. -/
theorem toRead_of_steps {t : Thread} {id : Nat} (old : id < s.nextCall)
    (steps : ((container kind Thread w).restrict fun now _ => now.writing = false).Steps s actions
      last) (begins : last.BeginsRead t id) :
    last.toRead t + actions.count (.step t) ≤ s.toRead t := by
  induction steps with
  | refl => exact Nat.le_refl _
  | @step actions middle action last prior taken inductionHypothesis =>
      obtain ⟨down, stepped⟩ := taken
      have move := moves_of_step stepped
      have later : s.nextCall ≤ middle.nextCall := by
        refine prior.preserves (fun now => s.nextCall ≤ now.nextCall) ?_ (Nat.le_refl _)
        rintro now action next before ⟨-, stepped⟩
        exact before.trans (moves_of_step stepped).nextCall_le
      have before : middle.BeginsRead t id :=
        (move.beginsRead_of_next begins).resolve_right (by omega)
      have earlier := inductionHypothesis before
      have now := move.toRead_le down before begins
      rw [List.count_append]
      omega

/-- Reads are wait-free as long as no writer shows: a thread in `begin_read` is
held up by nothing but the lock of the registry, on its first read of the
container, and if it does not see the flag its section is opened after three
steps of its own, or six on the first read, whatever the others do meanwhile. -/
theorem reads_wait_free (reachable : (container kind Thread w).Reachable s) {t : Thread} {id : Nat}
    (begins : s.BeginsRead t id) :
    (s.advance t = none ↔
      (∃ call, s.pc t = .register call) ∧ s.slots t = none ∧ s.registryLock ≠ none) ∧
    ∀ actions last,
      ((container kind Thread w).restrict fun now _ => now.writing = false).Steps s actions last →
      (if (s.slots t).isSome then 3 else 6) ≤ actions.count (.step t) →
        ¬ last.BeginsRead t id := by
  have sound := sound_of_reachable reachable
  refine ⟨?_, fun actions last steps enough still => ?_⟩
  · rw [advance_eq_none_iff begins]
    constructor
    · rintro ⟨⟨call, here⟩, held⟩
      exact ⟨⟨call, here⟩, sound.registered.unregistered_slot t (by rw [here]; rfl), held⟩
    · rintro ⟨here, -, held⟩
      exact ⟨here, held⟩
  · have old : id < s.nextCall := (identified_of_reachable reachable).call_lt t id begins.1
    have left := toRead_of_steps old steps still
    have some := toRead_pos still
    have bound := toRead_bound (t := t) sound.registered
    omega

/-- The first read of a container that nobody writes. -/
theorem first_read_wait_free :
    ∃ s last : State (Fin 2) 64, s.BeginsRead 1 0 ∧
      ((container .vec (Fin 2) 64).restrict fun now _ => now.writing = false).Steps s
        (List.replicate 6 (.step 1)) last ∧ ¬ last.BeginsRead 1 0 := by
  let s : State (Fin 2) 64 :=
    { State.new (Fin 2) 64 with nextCall := 1 }.goto 1 (.slot ⟨0, .len⟩)
  have called : (container .vec (Fin 2) 64).Step (.new (Fin 2) 64) (.read 1 .len) s := rfl
  obtain ⟨last, ran, -⟩ := (Option.any_eq_true (fun _ => true) _).mp
    (show (System.execute (System.guarded (State.step .vec) fun now _ => now.writing = false) s
      (List.replicate 6 (.step 1))).any (fun _ => true) = true by decide +kernel)
  have steps : ((container .vec (Fin 2) 64).restrict fun now _ => now.writing = false).Steps s
      (List.replicate 6 (.step 1)) last := System.steps_of_execute_guarded ran
  have begins : s.BeginsRead 1 0 := ⟨rfl, rfl, rfl⟩
  exact ⟨s, last, begins, steps,
    (reads_wait_free (.step (.initial rfl) called) begins).2 _ last steps (by decide)⟩

end Flag

/-- Steps of two threads that open no section. -/
def jostling (kind : Kind) {Thread : Type} [DecidableEq Thread] (w : Nat) (t u : Thread) :
    System (State Thread w) (Action Thread) where
  Initial s := s = .new Thread w
  Step s action next := (action = .step t ∨ action = .step u) ∧
    s.step kind action = some next ∧ (next.pc action.thread).opened = none

namespace State

variable {Thread : Type} [DecidableEq Thread] {w : Nat} {kind : Kind}
variable {s next : State Thread w} {action : Action Thread} {t u : Thread} {id : Nat}
variable {call : WriteCall} {read : ReadCall} {count : Nat}

omit [DecidableEq Thread] in
/-- A `fetch_add` and a `fetch_sub` on the same counter. -/
theorem fetchSub_fetchAdd : (s.fetchAdd count).fetchSub count = s := by
  have cancels : ((· - 1) ∘ (· + 1) : BitVec w → BitVec w) = id := by
    funext counter
    simp
  unfold fetchAdd fetchSub
  simp only [List.modify_modify_eq, cancels, List.modify_id]

/-- A reader that sees the flag has incremented its counter, and takes it back. -/
theorem advance_add (spins : s.pc u = .add read count) :
    s.advance u = some ((s.fetchAdd count).goto u (.load read count)) := by
  simp only [advance, spins]

theorem advance_load (up : s.writing = true) :
    (s.goto u (.load read count)).advance u = some (s.goto u (.backOff read count)) := by
  simp only [advance, goto_pc_self, goto_writing, up, if_true, goto_goto]

theorem advance_backOff (spins : s.pc u = .add read count) :
    ((s.fetchAdd count).goto u (.backOff read count)).advance u = some s := by
  have back : (((s.fetchAdd count).fetchSub count).goto u (.backOff read count)).goto u
      (.add read count) = s := by
    rw [fetchSub_fetchAdd, goto_goto, goto_of_eq spins]
  simp only [advance, goto_pc_self]
  exact congrArg some back

/-- A thread stays in `begin_write` until it opens its section. -/
theorem Moves.beginsWrite_stays (move : Moves kind s (.step t) next)
    (begins : s.BeginsWrite t id) (closed : (next.pc t).opened = none) :
    next.BeginsWrite t id := by
  unfold BeginsWrite at begins ⊢
  cases move <;> simp_all [Pc.call, Pc.beginsWrite, Pc.opened]

/-- A step of a thread that is in `begin_read` or in `begin_write` leaves the
flag up and hands out no guard. -/
theorem Moves.up_stays (move : Moves kind s (.step t) next) (up : s.writing = true)
    (begins : s.BeginsWrite t id ∨ s.BeginsRead t id) :
    next.writing = true ∧ next.readGuards = s.readGuards := by
  unfold BeginsWrite BeginsRead at begins
  cases move <;> simp_all [Pc.call]

/-- A writer and a reader that have not got in, and nobody else is in a call. -/
structure Stalled (s : State Thread w) (t u : Thread) (call : WriteCall) (read : ReadCall) :
    Prop where
  writes : s.BeginsWrite t call.id
  reads : s.BeginsRead u read.id
  others : ∀ v, v ≠ t → v ≠ u → s.pc v = .idle
  up : s.writing = true
  guards : s.readGuards = []

theorem Stalled.not_readSectionOpen (stalled : s.Stalled t u call read) : ¬ s.ReadSectionOpen := by
  rintro (live | ⟨v, reading⟩)
  · exact live stalled.guards
  · by_cases first : v = t
    · have writes := stalled.writes.2
      cases here : s.pc v <;> simp_all [Pc.isReading, Pc.beginsWrite]
    · by_cases second : v = u
      · have closed := stalled.reads.2.2
        cases here : s.pc v <;> simp_all [Pc.isReading, Pc.opened]
      · rw [stalled.others v first second] at reading
        cases reading

theorem Stalled.preserved (different : t ≠ u) (stalled : s.Stalled t u call read)
    (moved : (jostling kind w t u).Step s action next) :
    next.Stalled t u call read ∧ (container kind Thread w).Step s action next := by
  obtain ⟨who, stepped, closed⟩ := moved
  have move := moves_of_step stepped
  have reads : next.BeginsRead u read.id := move.beginsRead_stays stalled.up stalled.reads
  have others (v : Thread) (notWriter : v ≠ t) (notReader : v ≠ u) : next.pc v = .idle := by
    refine (move.pc_of_ne ?_).trans (stalled.others v notWriter notReader)
    rcases who with rfl | rfl
    · exact notWriter
    · exact notReader
  refine ⟨?_, stepped⟩
  rcases who with rfl | rfl
  · obtain ⟨up, guards⟩ := move.up_stays stalled.up (.inl stalled.writes)
    exact ⟨move.beginsWrite_stays stalled.writes closed, reads, others, up,
      guards.trans stalled.guards⟩
  · obtain ⟨up, guards⟩ := move.up_stays stalled.up (.inr stalled.reads)
    have writes : next.BeginsWrite t call.id := by
      rw [BeginsWrite, move.pc_of_ne different]
      exact stalled.writes
    exact ⟨writes, reads, others, up, guards.trans stalled.guards⟩

theorem jostling_of_walking {left : Thread} (who : left = t ∨ left = u)
    (continues : (walking kind w left).Continues s next) :
    (jostling kind w t u).Continues s next := by
  refine continues.map id ?_
  rintro before action after ⟨rfl, stepped, closed⟩
  have moved : (jostling kind w t u).Step before (.step left) after :=
    ⟨who.imp (congrArg Action.step) (congrArg Action.step), stepped, closed⟩
  exact .single moved

/-- A reader increments its counter just before the scan loads it, and finds the
flag up just after. Both are then where they were. -/
theorem jostling_round (different : t ≠ u) (scans : s.pc t = .scanLock call)
    (spins : s.pc u = .add read count) (up : s.writing = true) (free : s.registryLock = none)
    (zero : ∀ counter ∈ s.registry, counter = 0) (inside : count < s.registry.length)
    (wide : w ≠ 0) :
    ∃ actions, (jostling kind w t u).Steps s actions s ∧ .step t ∈ actions ∧ .step u ∈ actions := by
  let added : State Thread w := (s.fetchAdd count).goto u (.load read count)
  have add : (jostling kind w t u).Step s (.step u) added :=
    ⟨.inr rfl, advance_add spins, by simp [added, Pc.opened]⟩
  have here : added.goto t (.scanLock call) = added :=
    goto_of_eq ((goto_pc_of_ne _ _ _ _ different).trans scans)
  have earlier : ∀ position < count, added.registry[position]? = some 0 := by
    intro position below
    have loaded : s.registry[position]? = some 0 := by
      rw [List.getElem?_eq_getElem (below.trans inside), zero _ (List.getElem_mem _)]
    simp [added, loaded, Nat.ne_of_gt below]
  have loaded : added.registry[count]? = some 1 := by
    simp [added, List.getElem?_eq_getElem inside, zero _ (List.getElem_mem _)]
  have nonzero : (1 : BitVec w) ≠ 0 := by
    intro same
    have number : 1 % 2 ^ w = 0 % 2 ^ w := congrArg BitVec.toNat same
    rw [Nat.mod_eq_of_lt (Nat.one_lt_two_pow wide), Nat.zero_mod] at number
    cases number
  have scanned : (walking kind w t).Continues added
      ({ added with registryLock := some t }.goto t (.scanned call false)) := by
    have walked : (walking kind w t).Continues (added.goto t (.scanLock call))
        ({ added with registryLock := some t }.goto t (.scanned call false)) :=
      walking_to_rescan free earlier loaded nonzero
    rwa [here] at walked
  obtain ⟨scan, scanned⟩ := jostling_of_walking (u := u) (.inl rfl) scanned
  have rescan : (jostling kind w t u).Step
      ({ added with registryLock := some t }.goto t (.scanned call false)) (.step t) added := by
    have unlocked : added.registryLock = none := free
    refine ⟨.inl rfl, ?_, ?_⟩
    · conv_rhs => rw [← here]
      simp [step, advance, goto, ← unlocked]
    · simp [added, goto_pc_of_ne _ _ _ _ different, scans, Pc.opened]
  have load : (jostling kind w t u).Step added (.step u)
      ((s.fetchAdd count).goto u (.backOff read count)) :=
    ⟨.inr rfl, advance_load (s := s.fetchAdd count) up, by simp [Pc.opened]⟩
  have backOff : (jostling kind w t u).Step ((s.fetchAdd count).goto u (.backOff read count))
      (.step u) s :=
    ⟨.inr rfl, advance_backOff spins, by simp [spins, Pc.opened]⟩
  have round := ((((System.Steps.single add).trans scanned).step rescan).step load).step backOff
  refine ⟨_, round, ?_, ?_⟩ <;> simp

end State

open State in
/-- A writer that scans and a reader in `begin_read` can keep each other there for
ever, while both take steps again and again. -/
theorem exists_stalled_forever {Thread : Type} [DecidableEq Thread] {w : Nat} {kind : Kind}
    {s : State Thread w} (reachable : (container kind Thread w).Reachable s) {t u : Thread}
    {call : WriteCall} {read : ReadCall} {count : Nat} (scans : s.pc t = .scanLock call)
    (spins : s.pc u = .add read count) (others : ∀ v, v ≠ t → v ≠ u → s.pc v = .idle)
    (guards : s.readGuards = []) :
    ∃ run : (container kind Thread w).Forever s, run.Recurs (.step t) ∧ run.Recurs (.step u) ∧
      ∀ index, (run.stateAt index).Stalled t u call read := by
  have sound := sound_of_reachable reachable
  have different : t ≠ u := by
    rintro rfl
    cases scans.symm.trans spins
  have rest (property : Pc → Bool) (writer : property (.scanLock call) = false)
      (reader : property (.add read count) = false) (idle : property .idle = false) (v : Thread) :
      property (s.pc v) = false := by
    by_cases first : v = t
    · rw [first, scans, writer]
    · by_cases second : v = u
      · rw [second, spins, reader]
      · rw [others v first second, idle]
  have zero : ∀ counter ∈ s.registry, counter = 0 :=
    counter_eq_zero sound.registered sound.accounted guards (rest Pc.pins rfl rfl rfl)
  have free : s.registryLock = none := by
    refine Option.eq_none_iff_forall_ne_some.mpr fun v owner => ?_
    cases ((sound.registered.lock_iff v).mp owner).symm.trans (rest Pc.ownsRegistry rfl rfl rfl v)
  have inside : count < s.registry.length :=
    sound.registered.slot_lt u count (sound.registered.pointer_slot u count (by rw [spins]; rfl))
  have up : s.writing = true := sound.locked.up_of_raised (t := t) (by rw [scans]; rfl)
  have wide : w ≠ 0 := by
    rintro rfl
    have room := sound.accounted.sections_lt u
    rw [spins] at room
    simp [Pc.inRead] at room
  have writes : s.BeginsWrite t call.id := by
    rw [BeginsWrite, scans]
    exact ⟨rfl, rfl⟩
  have reads : s.BeginsRead u read.id := by
    rw [BeginsRead, spins]
    exact ⟨rfl, rfl, rfl⟩
  have stalled : s.Stalled t u call read := ⟨writes, reads, others, up, guards⟩
  obtain ⟨actions, steps, scan, spin⟩ : ∃ actions, (jostling kind w t u).Steps s actions s ∧
      .step t ∈ actions ∧ .step u ∈ actions :=
    jostling_round different scans spins up free zero inside wide
  let kept : System (State Thread w) (Action Thread) :=
    (container kind Thread w).restrict fun now _ => now.Stalled t u call read
  have preserved (state : State Thread w) (action : Action Thread) (next : State Thread w)
      (held : state.Stalled t u call read) (moved : (jostling kind w t u).Step state action next) :
      next.Stalled t u call read ∧ (container kind Thread w).Step state action next :=
    held.preserved different moved
  have round : kept.Steps s actions s := (steps.keep preserved stalled).2
  have segment : ∀ state, state = s → ∃ actions last, actions ≠ [] ∧
      kept.Steps state actions last ∧ last = s ∧
        ∀ action, action = .step t ∨ action = .step u → action ∈ actions := by
    rintro _ rfl
    refine ⟨actions, _, List.ne_nil_of_mem scan, round, rfl, ?_⟩
    rintro action (rfl | rfl)
    · exact scan
    · exact spin
  obtain ⟨run, recurs⟩ := System.exists_forever segment s rfl
  exact ⟨run.unrestrict, recurs _ (.inl rfl), recurs _ (.inr rfl), run.allowed⟩

open State in
/-- A writer that scans and a reader in `begin_read` can keep each other out for
ever, in a run in which every thread that is in a call steps again and again. So
neither `begin_write` nor `begin_read` returns under every fair schedule, although
no section is open and no other thread is in a call. -/
theorem write_and_read_livelock {Thread : Type} [DecidableEq Thread] {w : Nat} {kind : Kind}
    {s : State Thread w} (reachable : (container kind Thread w).Reachable s) {t u : Thread}
    {call : WriteCall} {read : ReadCall} {count : Nat} (scans : s.pc t = .scanLock call)
    (spins : s.pc u = .add read count) (others : ∀ v, v ≠ t → v ≠ u → s.pc v = .idle)
    (guards : s.readGuards = []) :
    ∃ run : (container kind Thread w).Forever s,
      (∀ index v, (run.stateAt index).pc v ≠ .idle → run.Recurs (.step v)) ∧
      ∀ index, (run.stateAt index).BeginsWrite t call.id ∧
        (run.stateAt index).BeginsRead u read.id ∧ ¬ (run.stateAt index).ReadSectionOpen := by
  obtain ⟨run, writer, reader, held⟩ := exists_stalled_forever reachable scans spins others guards
  refine ⟨run, fun index v busy => ?_, fun index =>
    ⟨(held index).writes, (held index).reads, (held index).not_readSectionOpen⟩⟩
  by_cases first : v = t
  · exact first ▸ writer
  · by_cases second : v = u
    · exact second ▸ reader
    · exact absurd ((held index).others v first second) busy

/-- A `push` by one thread and the first `len` by another. -/
theorem push_and_len_livelock :
    ∃ (s : State (Fin 2) 64) (run : (container .vec (Fin 2) 64).Forever s),
      run.Recurs (.step 0) ∧ run.Recurs (.step 1) ∧
        ∀ index, (run.stateAt index).BeginsWrite 0 1 ∧ (run.stateAt index).BeginsRead 1 0 := by
  obtain ⟨s, reachable, met⟩ := System.exists_reachable_of_execute
    (fun s : State (Fin 2) 64 => decide (s.pc 0 = .scanLock ⟨1, .push⟩ ∧
      s.pc 1 = .add ⟨0, .len⟩ 0 ∧ s.readGuards = []))
    (show (System.execute (State.step .vec) (.new (Fin 2) 64)
      [.read 1 .len, .step 1, .step 1, .step 1, .step 1, .write 0 .push, .step 0,
        .step 0]).any _ = true by decide +kernel)
  obtain ⟨scans, spins, guards⟩ := of_decide_eq_true met
  have nobody : ∀ v : Fin 2, v ≠ 0 → v ≠ 1 → s.pc v = .idle := by
    intro v notWriter notReader
    omega
  obtain ⟨run, recurs, out⟩ := write_and_read_livelock reachable scans spins nobody guards
  have writer : (run.stateAt 0).pc 0 ≠ .idle := by simp [run.stateZero, scans]
  have reader : (run.stateAt 0).pc 1 ≠ .idle := by simp [run.stateZero, spins]
  exact ⟨s, run, recurs 0 0 writer, recurs 0 1 reader,
    fun index => ⟨(out index).1, (out index).2.1⟩⟩

/-- The steps of one thread where the flag is up, and of the others at any time. -/
def passing (kind : Kind) {Thread : Type} [DecidableEq Thread] (w : Nat) (u : Thread) :
    System (State Thread w) (Action Thread) :=
  (container kind Thread w).restrict fun now action => action.thread = u → now.writing = true

namespace State

variable {Thread : Type} [DecidableEq Thread] {w : Nat} {kind : Kind}
variable {s next : State Thread w} {action : Action Thread} {t u : Thread}
variable {read : ReadCall} {count : Nat}

theorem passing_of_walking (different : t ≠ u) (continues : (walking kind w t).Continues s next) :
    (passing kind w u).Continues s next := by
  refine continues.map id ?_
  rintro before action after ⟨rfl, stepped, -⟩
  have moved : (passing kind w u).Step before (.step t) after :=
    ⟨fun same => absurd same different, stepped⟩
  exact .single moved

/-- A reader that only looks when the flag is up stays where it is. -/
theorem beginsRead_of_passing {id : Nat} (begins : s.BeginsRead u id)
    (moved : (passing kind w u).Step s action next) :
    next.BeginsRead u id ∧ (container kind Thread w).Step s action next := by
  obtain ⟨late, stepped⟩ := moved
  have move := moves_of_step stepped
  refine ⟨?_, stepped⟩
  by_cases mine : action.thread = u
  · exact move.beginsRead_stays (late mine) begins
  · rw [BeginsRead, move.pc_of_ne (Ne.symm mine)]
    exact begins

/-- A reader tries once, finds the flag up and backs off. -/
theorem spin_round (spins : s.pc u = .add read count) (up : s.writing = true) :
    (passing kind w u).Steps s [.step u, .step u, .step u] s := by
  have add : (passing kind w u).Step s (.step u) ((s.fetchAdd count).goto u (.load read count)) :=
    ⟨fun _ => up, advance_add spins⟩
  have load : (passing kind w u).Step ((s.fetchAdd count).goto u (.load read count)) (.step u)
      ((s.fetchAdd count).goto u (.backOff read count)) :=
    ⟨fun _ => up, advance_load (s := s.fetchAdd count) up⟩
  have backOff : (passing kind w u).Step ((s.fetchAdd count).goto u (.backOff read count)) (.step u)
      s :=
    ⟨fun _ => up, advance_backOff spins⟩
  exact ((System.Steps.single add).step load).step backOff

/-- A whole write, while a reader tries once. -/
theorem overtaking_round (different : t ≠ u) (spins : s.pc u = .add read count)
    (idle : s.pc t = .idle) (free : s.write = none) (down : s.writing = false)
    (unlocked : s.registryLock = none) (zero : ∀ counter ∈ s.registry, counter = 0)
    {method : WriteMethod} (locks : kind.locks method = true)
    (releases : method.mayRelease = true) :
    ∃ actions, (passing kind w u).Steps s actions { s with nextCall := s.nextCall + 1 } ∧
      .write t method ∈ actions ∧ .leaveWrite t none ∈ actions ∧ .step u ∈ actions := by
  let call : WriteCall := ⟨s.nextCall, method⟩
  let asked : State Thread w := { s with nextCall := s.nextCall + 1 }
  let held : State Thread w := { asked with write := some t, writing := true }
  have calls : (passing kind w u).Step s (.write t method) (asked.goto t (.acquire call)) := by
    refine ⟨fun same => absurd same different, ?_⟩
    change s.step kind (.write t method) = _
    simp only [step, idle, locks, and_self, if_true]
    rfl
  have raised : (walking kind w t).Continues (asked.goto t (.acquire call))
      (held.goto t (.scanLock call)) := walking_to_raised (s := asked) free
  have waits : (held.goto t (.scanLock call)).pc u = .add read count :=
    (goto_pc_of_ne _ _ _ _ (Ne.symm different)).trans spins
  have spun : (passing kind w u).Steps (held.goto t (.scanLock call))
      [.step u, .step u, .step u] (held.goto t (.scanLock call)) := spin_round waits (by rfl)
  have scanned : (walking kind w t).Continues (held.goto t (.scanLock call))
      ({ held with registryLock := some t }.goto t (.scanned call true)) :=
    walking_to_scanned (s := held) unlocked zero
  have enters : (passing kind w u).Step
      ({ held with registryLock := some t }.goto t (.scanned call true)) (.step t)
      (held.goto t (.writing call)) := by
    have free : held.registryLock = none := unlocked
    refine ⟨fun same => absurd same different, ?_⟩
    change State.advance _ t = _
    simp [advance, goto, ← free]
  have leaves : (passing kind w u).Step (held.goto t (.writing call)) (.leaveWrite t none)
      (held.goto t (.lower call.id)) := by
    refine ⟨fun same => absurd same different, ?_⟩
    change State.step kind _ (.leaveWrite t none) = _
    simp [step, releases, call]
  have dropped : (walking kind w t).Continues (held.goto t (.lower call.id))
      ({ held with writing := false, write := none }.goto t .idle) := walking_to_dropped
  have back : ({ held with writing := false, write := none } : State Thread w).goto t .idle =
      asked := by
    have same : ({ held with writing := false, write := none } : State Thread w) = asked := by
      simp only [held, asked, ← down, ← free]
    rw [same, goto_of_eq (s := asked) idle]
  rw [back] at dropped
  obtain ⟨raise, raised⟩ := passing_of_walking different raised
  obtain ⟨scan, scanned⟩ := passing_of_walking different scanned
  obtain ⟨drop, dropped⟩ := passing_of_walking different dropped
  refine ⟨_, ((((((System.Steps.single calls).trans raised).trans spun).trans scanned).step
    enters).step leaves).trans dropped, ?_, ?_, ?_⟩ <;> simp

end State

open State in
/-- A thread in `begin_read` can be overtaken for ever by one that calls a write
method of the container again and again, although it never stops trying. -/
theorem read_overtaken_forever {Thread : Type} [DecidableEq Thread] {w : Nat} {kind : Kind}
    {s : State Thread w} (reachable : (container kind Thread w).Reachable s) {t u : Thread}
    (different : t ≠ u) {read : ReadCall} {count : Nat} (spins : s.pc u = .add read count)
    (others : ∀ v, v ≠ u → s.pc v = .idle) (readGuards : s.readGuards = [])
    (writeGuards : s.writeGuards = []) {method : WriteMethod}
    (locks : kind.locks method = true) (releases : method.mayRelease = true) :
    ∃ run : (container kind Thread w).Forever s,
      run.Recurs (.write t method) ∧ run.Recurs (.leaveWrite t none) ∧ run.Recurs (.step u) ∧
        ∀ index, (run.stateAt index).BeginsRead u read.id := by
  have sound := sound_of_reachable reachable
  have rest (property : Pc → Bool) (reader : property (.add read count) = false)
      (idle : property .idle = false) (v : Thread) : property (s.pc v) = false := by
    by_cases same : v = u
    · rw [same, spins, reader]
    · rw [others v same, idle]
  have zero : ∀ counter ∈ s.registry, counter = 0 :=
    counter_eq_zero sound.registered sound.accounted readGuards (rest Pc.pins rfl rfl)
  have unlocked : s.registryLock = none := by
    refine Option.eq_none_iff_forall_ne_some.mpr fun v owner => ?_
    cases ((sound.registered.lock_iff v).mp owner).symm.trans (rest Pc.ownsRegistry rfl rfl v)
  have free : s.write = none := by
    refine Option.eq_none_iff_forall_ne_some.mpr fun v owner => ?_
    rcases (sound.locked.owner_iff v).mp owner with owns | ⟨guard, live, -⟩
    · cases owns.symm.trans (rest Pc.ownsWrite rfl rfl v)
    · exact List.ne_nil_of_mem live writeGuards
  have down : s.writing = false := sound.locked.flag_free free
  have reads : s.BeginsRead u read.id := by
    rw [BeginsRead, spins]
    exact ⟨rfl, rfl, rfl⟩
  let kept : System (State Thread w) (Action Thread) :=
    (container kind Thread w).restrict fun now _ => now.BeginsRead u read.id
  have stays (state : State Thread w) (action : Action Thread) (next : State Thread w)
      (begins : state.BeginsRead u read.id) (moved : (passing kind w u).Step state action next) :
      next.BeginsRead u read.id ∧ (container kind Thread w).Step state action next :=
    beginsRead_of_passing begins moved
  have segment : ∀ state, (∃ calls, state = { s with nextCall := calls }) →
      ∃ actions last, actions ≠ [] ∧ kept.Steps state actions last ∧
        (∃ calls, last = { s with nextCall := calls }) ∧
        ∀ action, action = .write t method ∨ action = .leaveWrite t none ∨ action = .step u →
          action ∈ actions := by
    rintro _ ⟨calls, rfl⟩
    obtain ⟨actions, steps, write, leave, spin⟩ : ∃ actions, (passing kind w u).Steps
        { s with nextCall := calls } actions { s with nextCall := calls + 1 } ∧
          .write t method ∈ actions ∧ .leaveWrite t none ∈ actions ∧ .step u ∈ actions :=
      overtaking_round (s := { s with nextCall := calls }) different spins (others t different)
        free down unlocked zero locks releases
    have round : kept.Steps _ actions _ := (steps.keep stays reads).2
    refine ⟨actions, _, List.ne_nil_of_mem write, round, ⟨calls + 1, rfl⟩, ?_⟩
    rintro action (rfl | rfl | rfl)
    · exact write
    · exact leave
    · exact spin
  obtain ⟨run, recurs⟩ := System.exists_forever segment s ⟨s.nextCall, rfl⟩
  exact ⟨run.unrestrict, recurs _ (.inl rfl), recurs _ (.inr (.inl rfl)),
    recurs _ (.inr (.inr rfl)), run.allowed⟩

/-- The first `len` of one thread, and another that calls `push` in a loop. -/
theorem len_overtaken_by_pushes :
    ∃ (s : State (Fin 2) 64) (run : (container .vec (Fin 2) 64).Forever s),
      run.Recurs (.write 0 .push) ∧ run.Recurs (.step 1) ∧
        ∀ index, (run.stateAt index).BeginsRead 1 0 := by
  obtain ⟨s, reachable, met⟩ := System.exists_reachable_of_execute
    (fun s : State (Fin 2) 64 => decide (s.pc 1 = .add ⟨0, .len⟩ 0 ∧ s.pc 0 = .idle ∧
      s.readGuards = [] ∧ s.writeGuards = []))
    (show (System.execute (State.step .vec) (.new (Fin 2) 64)
      [.read 1 .len, .step 1, .step 1, .step 1, .step 1]).any _ = true by decide +kernel)
  obtain ⟨spins, idle, readGuards, writeGuards⟩ := of_decide_eq_true met
  have others : ∀ v : Fin 2, v ≠ 1 → s.pc v = .idle := by
    intro v notReader
    obtain rfl : v = 0 := by omega
    exact idle
  obtain ⟨run, writes, -, tries, waits⟩ := read_overtaken_forever reachable (t := 0) (by decide)
    spins others readGuards writeGuards (show Kind.locks .vec .push = true by rfl) rfl
  exact ⟨s, run, writes, tries, waits⟩

end DarkStd.Sync
