import DarkStd.Sync.Starvation

/-!
# Why a call may never return

A run is fair here if every thread that can take a step of its call does so and
every section that is opened is closed again. Still `begin_read` and
`begin_write` need not return. A writer that has the mutex waits for ever only
if some reader backs off for ever, one that has not got it also if others take
it again and again; a reader waits for ever only for a writer that does, or for
ever new ones, or on its first read for the lock of the registry.
-/

namespace DarkStd.Sync

open DarkStd.Semantics

/-- Threads that can take a step in a call do so, the bodies of methods end, and
guards are dropped. -/
structure FairRun {kind : Kind} {Thread : Type} [DecidableEq Thread] {w : Nat}
    {s : State Thread w} (run : (container kind Thread w).Forever s) : Prop where
  steps : ∀ t, run.Fair (.step t)
  reads_end : ∀ index id, (run.stateAt index).OpenRead id →
    ∃ later, index ≤ later ∧ ¬ (run.stateAt later).OpenRead id
  writes_end : ∀ index id, (run.stateAt index).OpenWrite id →
    ∃ later, index ≤ later ∧ ¬ (run.stateAt later).OpenWrite id

namespace Pc

/-- The thread is in a call, and the next it does is a step of it. -/
def steps : Pc → Bool
  | .idle | .reading _ _ | .writing _ => false
  | _ => true

/-- In the loop of `begin_read`, at this counter. -/
def spins (read : ReadCall) (count : Nat) (pc : Pc) : Prop :=
  pc = .add read count ∨ pc = .load read count ∨ pc = .backOff read count

/-- What a scan has still to do before it opens the section, if all counters are
zero. -/
def toWrite (counters : Nat) : Pc → Nat
  | .scanned _ false => counters + 4
  | .scanLock _ => counters + 3
  | .scan _ next => counters - next + 2
  | .scanned _ true => 1
  | _ => 0

theorem steps_of_beginsWrite {pc : Pc} (begins : pc.beginsWrite = true) : pc.steps = true := by
  cases pc <;> first | rfl | cases begins

theorem ownsWrite_of_raised {pc : Pc} (raised : pc.raised = true) : pc.ownsWrite = true := by
  cases pc <;> first | rfl | cases raised

/-- The thread has the mutex or waits for it. -/
theorem ownsWrite_or_acquires {pc : Pc} (begins : pc.beginsWrite = true) :
    pc.ownsWrite = true ∨ ∃ call, pc = .acquire call := by
  cases pc <;> simp_all [Pc.beginsWrite, Pc.ownsWrite]

/-- The lock of the registry is held by writers that scan and by readers that register. -/
theorem ownsWrite_or_registers {pc : Pc} (owns : pc.ownsRegistry = true) :
    pc.ownsWrite = true ∨ ∃ call, pc = .push call ∨ ∃ count, pc = .release call count := by
  cases pc <;> simp_all [Pc.ownsRegistry, Pc.ownsWrite]

end Pc

namespace State

variable {Thread : Type} [DecidableEq Thread] {w : Nat} {kind : Kind}
variable {s next : State Thread w} {action : Action Thread} {t u : Thread} {id : Nat}
variable {read : ReadCall} {count : Nat}

/-- A thread that can only take steps stays where it is until it does. -/
theorem Moves.pc_of_ne_step (move : Moves kind s action next) (steps : (s.pc t).steps = true)
    (other : action ≠ .step t) : next.pc t = s.pc t := by
  refine move.pc_of_ne fun mine => ?_
  subst mine
  cases move <;> simp_all [Pc.steps, Action.thread]

/-- A thread leaves the loop of `begin_read` only where the flag is down. -/
theorem Moves.spins_or_opens (move : Moves kind s action next)
    (spins : (s.pc u).spins read count) :
    (next.pc u).spins read count ∨ s.writing = false ∧ next.pc u = .reading read count := by
  have steps : (s.pc u).steps = true := by
    rcases spins with here | here | here <;> rw [here] <;> rfl
  by_cases mine : action = .step u
  · subst mine
    unfold Pc.spins at spins ⊢
    cases move <;> simp_all
  · rw [move.pc_of_ne_step steps mine]
    exact .inl spins

/-- The mutex stays with its owner until it is unlocked. -/
theorem Moves.write_stays (move : Moves kind s action next) (owner : s.write = some t)
    (held : next.write ≠ none) : next.write = some t := by
  cases move with
  | acquire here free => cases free.symm.trans owner
  | unlock here => exact absurd rfl held
  | _ => exact owner

/-- A thread goes on with its `begin_write` or opens its section. -/
theorem Moves.beginsWrite_or_opens (move : Moves kind s action next)
    (begins : s.BeginsWrite t id) : next.BeginsWrite t id ∨ next.OpenWrite id := by
  obtain ⟨call, writes⟩ := begins
  have steps := Pc.steps_of_beginsWrite writes
  by_cases mine : action = .step t
  · subst mine
    by_cases opened : (next.pc t).opened = none
    · exact .inl (move.beginsWrite_stays ⟨call, writes⟩ opened)
    · right
      unfold OpenWrite
      cases move <;> simp_all [Pc.opened, Pc.call, Pc.beginsWrite]
      exact .inl ⟨t, _, goto_pc_self _ _ _, call⟩
  · left
    rw [BeginsWrite, move.pc_of_ne_step steps mine]
    exact ⟨call, writes⟩

/-- A write section is closed by the drop of its lock. -/
theorem Moves.lowers_of_closed (move : Moves kind s action next) (isOpen : s.OpenWrite id)
    (closed : ¬ next.OpenWrite id) : ∃ u, next.pc u = .lower id := by
  rcases isOpen with ⟨u, call, here, rfl⟩ | ⟨guard, live, rfl⟩
  · by_cases mine : action.thread = u
    · subst mine
      cases move with
      | @leaveWrite u other here' =>
          obtain rfl : other = call := by simpa [Action.thread, here'] using here
          exact ⟨u, goto_pc_self _ _ _⟩
      | @returnWrite u other returned here' =>
          obtain rfl : other = call := by simpa [Action.thread, here'] using here
          exact absurd (.inr ⟨_, List.mem_cons_self, rfl⟩) closed
      | _ => simp_all [Action.thread]
    · refine absurd (.inl ⟨u, call, ?_, rfl⟩) closed
      rw [move.pc_of_ne (Ne.symm mine), here]
  · cases move with
    | @dropWrite u dropped idle held =>
        by_cases same : guard = dropped
        · exact ⟨u, by rw [goto_pc_self, same]⟩
        · exact absurd (.inr ⟨guard, (List.mem_erase_of_ne same).mpr live, rfl⟩) closed
    | returnWrite => exact absurd (.inr ⟨guard, List.mem_cons_of_mem _ live, rfl⟩) closed
    | _ => exact absurd (.inr ⟨guard, live, rfl⟩) closed

/-- A writer that has raised the flag and goes on with its `begin_write` scans. -/
theorem Moves.raised_stays (move : Moves kind s action next) (raised : (s.pc t).raised = true)
    (begins : next.BeginsWrite t id) : (next.pc t).raised = true := by
  unfold BeginsWrite at begins
  by_cases mine : action.thread = t
  · subst mine
    cases move <;> simp_all [Pc.raised, Pc.call, Pc.beginsWrite]
  · rwa [move.pc_of_ne (Ne.symm mine)]

/-- A step of a scan, with all counters at zero, brings it nearer to its section. -/
theorem Moves.toWrite_lt (move : Moves kind s (.step t) next) (raised : (s.pc t).raised = true)
    (begins : s.BeginsWrite t id) (zero : ∀ counter ∈ s.registry, counter = 0) :
    (next.pc t).toWrite next.registry.length < (s.pc t).toWrite s.registry.length := by
  have loaded {position : Nat} {counter : BitVec w} (here : s.registry[position]? = some counter) :
      counter = 0 := zero counter (List.mem_of_getElem? here)
  unfold BeginsWrite at begins
  cases move with
  | scanZero here there =>
      obtain ⟨below, -⟩ := List.getElem?_eq_some_iff.mp there
      simp only [goto_pc_self, goto_registry, here, Pc.toWrite]
      omega
  | scanNonzero here there nonzero => exact absurd (loaded there) nonzero
  | _ => simp_all [Pc.raised, Pc.toWrite, Pc.beginsWrite]

/-- A scan is held up by nothing but the lock of the registry. -/
theorem exists_scan_step (registered : s.Registered) (raised : (s.pc t).raised = true)
    (begins : s.BeginsWrite t id) (free : ∀ u, s.registryLock = some u → u = t) :
    ∃ next, s.advance t = some next := by
  refine Option.ne_none_iff_exists'.mp ?_
  have writes := begins.2
  unfold advance
  cases here : s.pc t with
  | scanLock call =>
      have unlocked : s.registryLock = none := by
        refine Option.eq_none_iff_forall_ne_some.mpr fun u owner => ?_
        obtain rfl := free u owner
        have owns := (registered.lock_iff u).mp owner
        rw [here] at owns
        cases owns
      simp [unlocked]
  | scan call next =>
      cases loaded : s.registry[next]? with
      | none => simp [loaded]
      | some counter =>
          simp only [loaded]
          split <;> simp
  | scanned call allZero => simp
  | _ => simp_all [Pc.raised, Pc.beginsWrite]

omit [DecidableEq Thread] in
/-- With no section open, the counters of threads outside the loop of `begin_read`
are zero. -/
theorem counter_eq_zero_of_closed (registered : s.Registered) (accounted : s.Accounted)
    (closed : ¬ s.ReadSectionOpen) (outside : ∀ u read count, ¬ (s.pc u).spins read count) :
    ∀ counter ∈ s.registry, counter = 0 := by
  refine counter_eq_zero registered accounted (by_contra fun guards => closed (.inl guards))
    fun u => ?_
  cases here : s.pc u with
  | load read count => exact absurd (.inr (.inl here)) (outside u read count)
  | backOff read count => exact absurd (.inr (.inr here)) (outside u read count)
  | reading call count => exact absurd (.inr ⟨u, by rw [here]; rfl⟩) closed
  | _ => rfl

omit [DecidableEq Thread] in
theorem exists_openRead (isOpen : s.ReadSectionOpen) : ∃ id, s.OpenRead id := by
  rcases isOpen with guards | ⟨t, reading⟩
  · obtain ⟨guard, live⟩ := List.exists_mem_of_ne_nil _ guards
    exact ⟨guard.id, .inr ⟨guard, live, rfl⟩⟩
  · cases here : s.pc t with
    | reading call count => exact ⟨call.id, .inl ⟨t, call, count, here, rfl⟩⟩
    | _ => simp [here, Pc.isReading] at reading

omit [DecidableEq Thread] in
theorem Identified.openRead_lt (identified : s.Identified) (isOpen : s.OpenRead id) :
    id < s.nextCall := by
  rcases isOpen with ⟨t, call, count, here, rfl⟩ | ⟨guard, live, rfl⟩
  · exact identified.call_lt t call.id (by rw [here]; rfl)
  · exact identified.readGuard_lt guard live

end State

namespace FairRun

open State

variable {Thread : Type} [DecidableEq Thread] {w : Nat} {kind : Kind} {s : State Thread w}
variable {run : (container kind Thread w).Forever s} {first : Nat} {t u : Thread}
variable {read : ReadCall} {count : Nat}

/-- What a step of the run does. -/
theorem moves (run : (container kind Thread w).Forever s) (index : Nat) :
    Moves kind (run.stateAt index) (run.actionAt index) (run.stateAt (index + 1)) :=
  moves_of_step (run.step index)

/-- A thread that can take a step where it is does take it. -/
theorem goes_on (fair : FairRun run) (goal : State Thread w → Prop) {pc : Pc}
    (here : (run.stateAt first).pc t = pc) (steps : pc.steps = true)
    (leads : ∀ index, first ≤ index → (run.stateAt index).pc t = pc →
      ∃ next, (run.stateAt index).advance t = some next ∧ goal next) :
    ∃ later, first ≤ later ∧ goal (run.stateAt later) := by
  obtain ⟨index, after, still, taken⟩ := (fair.steps t).leads (fun now => now.pc t = pc) here
    (fun index after still =>
      let ⟨next, stepped, _⟩ := leads index after still
      ⟨next, stepped⟩)
    (fun index after still other =>
      ((moves run index).pc_of_ne_step (still ▸ steps) other).trans still)
  obtain ⟨next, stepped, reached⟩ := leads index after still
  have moved := run.step index
  rw [taken] at moved
  have same : next = run.stateAt (index + 1) := Option.some.inj (stepped.symm.trans moved)
  exact ⟨index + 1, Nat.le_succ_of_le after, same ▸ reached⟩

/-- With the flag up a thread in the loop of `begin_read` backs off. -/
theorem backs_off (fair : FairRun run)
    (up : ∀ index, first ≤ index → (run.stateAt index).writing = true)
    (spins : ((run.stateAt first).pc u).spins read count) :
    ∃ later, first ≤ later ∧ (run.stateAt later).pc u = .backOff read count := by
  have load {index : Nat} (after : first ≤ index)
      (here : (run.stateAt index).pc u = .load read count) :
      ∃ later, first ≤ later ∧ (run.stateAt later).pc u = .backOff read count := by
    obtain ⟨later, past, backs⟩ := fair.goes_on (fun now => now.pc u = .backOff read count) here
      rfl fun index past there => by simp [advance, there, up index (after.trans past)]
    exact ⟨later, after.trans past, backs⟩
  rcases spins with here | here | here
  · obtain ⟨later, past, loads⟩ := fair.goes_on (fun now => now.pc u = .load read count) here
      rfl fun index _ there => by simp [advance, there]
    exact load past loads
  · exact load (Nat.le_refl _) here
  · exact ⟨first, Nat.le_refl _, here⟩

/-- With the flag up for ever a thread does not leave the loop of `begin_read`. -/
theorem spins_on (run : (container kind Thread w).Forever s)
    (up : ∀ index, first ≤ index → (run.stateAt index).writing = true)
    (spins : ((run.stateAt first).pc u).spins read count) (index : Nat) (after : first ≤ index) :
    ((run.stateAt index).pc u).spins read count := by
  refine run.keeps (fun now => (now.pc u).spins read count) spins (fun now past spins => ?_) index
    after
  refine ((moves run now).spins_or_opens spins).resolve_right fun ⟨down, _⟩ => ?_
  cases down.symm.trans (up now past)

/-- It backs off again and again. -/
theorem backs_off_forever (fair : FairRun run)
    (up : ∀ index, first ≤ index → (run.stateAt index).writing = true)
    (spins : ((run.stateAt first).pc u).spins read count) (index : Nat) :
    ∃ later, index ≤ later ∧ (run.stateAt later).pc u = .backOff read count := by
  have still : ((run.stateAt (first + index)).pc u).spins read count :=
    spins_on run up spins _ (Nat.le_add_right first index)
  obtain ⟨later, past, backs⟩ := fair.backs_off
    (fun index after => up index ((Nat.le_add_right _ _).trans after)) still
  exact ⟨later, (Nat.le_add_left index first).trans past, backs⟩

/-- With the flag down for ever a thread in the loop of `begin_read` opens its section. -/
theorem opens (fair : FairRun run)
    (down : ∀ index, first ≤ index → (run.stateAt index).writing = false)
    (spins : ((run.stateAt first).pc u).spins read count) :
    ∃ later, first ≤ later ∧ (run.stateAt later).pc u = .reading read count := by
  have load {index : Nat} (after : first ≤ index)
      (here : (run.stateAt index).pc u = .load read count) :
      ∃ later, first ≤ later ∧ (run.stateAt later).pc u = .reading read count := by
    obtain ⟨later, past, reads⟩ := fair.goes_on (fun now => now.pc u = .reading read count) here
      rfl fun index past there => by simp [advance, there, down index (after.trans past)]
    exact ⟨later, after.trans past, reads⟩
  have add {index : Nat} (after : first ≤ index)
      (here : (run.stateAt index).pc u = .add read count) :
      ∃ later, first ≤ later ∧ (run.stateAt later).pc u = .reading read count := by
    obtain ⟨later, past, loads⟩ := fair.goes_on (fun now => now.pc u = .load read count) here
      rfl fun index _ there => by simp [advance, there]
    exact load (after.trans past) loads
  rcases spins with here | here | here
  · exact add (Nat.le_refl _) here
  · exact load (Nat.le_refl _) here
  · obtain ⟨later, past, adds⟩ := fair.goes_on (fun now => now.pc u = .add read count) here
      rfl fun index _ there => by simp [advance, there]
    exact add past adds

/-- The read sections that are open when the flag goes up for ever are closed in
the end. -/
theorem sections_end (fair : FairRun run) (reachable : (container kind Thread w).Reachable s)
    (up : ∀ index, first ≤ index → (run.stateAt index).writing = true) :
    ∃ last, first ≤ last ∧ ∀ index, last ≤ index → ¬ (run.stateAt index).ReadSectionOpen := by
  have identified := identified_of_reachable (run.reachable reachable first)
  have before : ∀ index, first ≤ index → ∀ id, (run.stateAt index).OpenRead id →
      (run.stateAt first).OpenRead id :=
    run.keeps (fun now => ∀ id, now.OpenRead id → (run.stateAt first).OpenRead id)
      (fun _ => id) fun index after old id isOpen =>
        old id ((moves run index).openRead_of_up (up index after) isOpen)
  -- Only ids below `nextCall` were open then, and they are closed one after the other.
  have closes (bound : Nat) : ∃ last, first ≤ last ∧
      ∀ index, last ≤ index → ∀ id < bound, ¬ (run.stateAt index).OpenRead id := by
    induction bound with
    | zero => exact ⟨first, Nat.le_refl _, fun _ _ id below => absurd below (Nat.not_lt_zero _)⟩
    | succ bound inductionHypothesis =>
        obtain ⟨last, after, closed⟩ := inductionHypothesis
        obtain ⟨later, past, ended⟩ : ∃ later, last ≤ later ∧
            ¬ (run.stateAt later).OpenRead bound := by
          by_cases isOpen : (run.stateAt last).OpenRead bound
          · exact fair.reads_end last bound isOpen
          · exact ⟨last, Nat.le_refl _, isOpen⟩
        refine ⟨later, after.trans past, fun index since id below => ?_⟩
        rcases Nat.lt_succ_iff_lt_or_eq.mp below with below | rfl
        · exact closed index (past.trans since) id below
        · refine run.keeps (fun now => ¬ now.OpenRead id) ended (fun now past' shut isOpen =>
            shut ((moves run now).openRead_of_up (up now ?_) isOpen)) index since
          exact (after.trans past).trans past'
  obtain ⟨last, after, closed⟩ := closes (run.stateAt first).nextCall
  refine ⟨last, after, fun index since isOpen => ?_⟩
  obtain ⟨id, isOpen⟩ := exists_openRead isOpen
  exact closed index since id (identified.openRead_lt (before index (after.trans since) id isOpen))
    isOpen

/-- A first read that is in the middle of its registration gets to the loop. -/
theorem reaches_loop (fair : FairRun run) {call : ReadCall}
    (here : (run.stateAt first).pc u = .push call ∨
      ∃ count, (run.stateAt first).pc u = .release call count) :
    ∃ later count, first ≤ later ∧ ((run.stateAt later).pc u).spins call count := by
  have release {index count : Nat} (after : first ≤ index)
      (here : (run.stateAt index).pc u = .release call count) :
      ∃ later count, first ≤ later ∧ ((run.stateAt later).pc u).spins call count := by
    obtain ⟨later, past, adds⟩ := fair.goes_on (fun now => now.pc u = .add call count) here
      rfl fun index _ there => by simp [advance, there]
    exact ⟨later, count, after.trans past, .inl adds⟩
  rcases here with here | ⟨count, here⟩
  · obtain ⟨later, past, count, releases⟩ := fair.goes_on
      (fun now => ∃ count, now.pc u = .release call count) here rfl
      fun index _ there => by simp [advance, there]
    exact release past releases
  · exact release (Nat.le_refl _) here

/-- A thread in `begin_read` that is not kept from registering gets to the loop. -/
theorem loops (fair : FairRun run) {id : Nat} (begins : (run.stateAt first).BeginsRead u id)
    (registers : ∀ call index, first ≤ index →
      ∃ later, index ≤ later ∧ (run.stateAt later).pc u ≠ .register call) :
    ∃ later call count, first ≤ later ∧ ((run.stateAt later).pc u).spins call count := by
  have register {index : Nat} {call : ReadCall} (after : first ≤ index)
      (here : (run.stateAt index).pc u = .register call) :
      ∃ later call count, first ≤ later ∧ ((run.stateAt later).pc u).spins call count := by
    obtain ⟨last, past, left⟩ := registers call index after
    obtain ⟨now, since, still, moved⟩ :=
      run.exists_end (fun now => now.pc u = .register call) here past left
    have move := moves run now
    have mine : run.actionAt now = .step u := by
      by_contra other
      exact moved ((move.pc_of_ne_step (by rw [still]; rfl) other).trans still)
    rw [mine] at move
    obtain ⟨later, count, beyond, spins⟩ : ∃ later count, now + 1 ≤ later ∧
        ((run.stateAt later).pc u).spins call count := by
      refine fair.reaches_loop (.inl ?_)
      generalize run.stateAt (now + 1) = next at move
      cases move <;> simp_all
    exact ⟨later, call, count, (after.trans since).trans ((Nat.le_succ now).trans beyond), spins⟩
  obtain ⟨-, reads, closed⟩ := begins
  cases here : (run.stateAt first).pc u with
  | slot call =>
      obtain ⟨later, past, ⟨count, found⟩ | missing⟩ := fair.goes_on
        (fun now => (∃ count, now.pc u = .add call count) ∨ now.pc u = .register call) here rfl
        fun index _ there => by
          cases slot : (run.stateAt index).slots u <;> simp [advance, there, slot]
      · exact ⟨later, call, count, past, .inl found⟩
      · exact register past missing
  | register call => exact register (Nat.le_refl _) here
  | push call =>
      obtain ⟨later, count, past, spins⟩ := fair.reaches_loop (.inl here)
      exact ⟨later, call, count, past, spins⟩
  | release call count =>
      obtain ⟨later, count, past, spins⟩ := fair.reaches_loop (.inr ⟨count, here⟩)
      exact ⟨later, call, count, past, spins⟩
  | add call count => exact ⟨first, call, count, Nat.le_refl _, .inl here⟩
  | load call count => exact ⟨first, call, count, Nat.le_refl _, .inr (.inl here)⟩
  | backOff call count => exact ⟨first, call, count, Nat.le_refl _, .inr (.inr here)⟩
  | reading call count => rw [here] at closed; cases closed
  | _ => rw [here] at reads; cases reads

/-- With all counters at zero, a scan that nobody keeps from the registry ends. -/
theorem scan_ends (fair : FairRun run) (reachable : (container kind Thread w).Reachable s)
    (scans : ∀ index, first ≤ index → ((run.stateAt index).pc t).raised = true)
    (zero : ∀ index, first ≤ index → ∀ counter ∈ (run.stateAt index).registry, counter = 0)
    (locks : ∀ index, first ≤ index → ∀ u, (run.stateAt index).registryLock = some u → u = t)
    (pushes : ∀ index, first ≤ index → ∀ u call, (run.stateAt index).pc u ≠ .push call) {id : Nat} :
    ¬ ∀ index, first ≤ index → (run.stateAt index).BeginsWrite t id := by
  intro waits
  have possible (index : Nat) (after : first ≤ index) :
      ∃ next, (run.stateAt index).advance t = some next :=
    exists_scan_step (sound_of_reachable (run.reachable reachable index)).registered
      (scans index after) (waits index after) (locks index after)
  have still (index : Nat) (after : first ≤ index) (other : run.actionAt index ≠ .step t) :
      ((run.stateAt (index + 1)).pc t).toWrite (run.stateAt (index + 1)).registry.length ≤
        ((run.stateAt index).pc t).toWrite (run.stateAt index).registry.length := by
    have move := moves run index
    rw [move.pc_of_ne_step (Pc.steps_of_beginsWrite (waits index after).2) other]
    rcases move.slots_eq with ⟨-, same⟩ | ⟨u, call, -, here, -⟩
    · rw [same]
    · exact absurd here (pushes index after u call)
  have lowers (index : Nat) (after : first ≤ index) (mine : run.actionAt index = .step t) :
      ((run.stateAt (index + 1)).pc t).toWrite (run.stateAt (index + 1)).registry.length <
        ((run.stateAt index).pc t).toWrite (run.stateAt index).registry.length :=
    (mine ▸ moves run index).toWrite_lt (scans index after) (waits index after) (zero index after)
  exact (fair.steps t).no_descent (fun now => (now.pc t).toWrite now.registry.length) possible
    still lowers

/-- A writer with the flag up that waits for ever is kept out by a reader that backs
off again and again. -/
theorem jostled_of_raised (fair : FairRun run) (reachable : (container kind Thread w).Reachable s)
    (raised : ((run.stateAt first).pc t).raised = true) {id : Nat}
    (waits : ∀ index, first ≤ index → (run.stateAt index).BeginsWrite t id) :
    ∃ u read count, ∀ index, ∃ later, index ≤ later ∧
      (run.stateAt later).pc u = .backOff read count := by
  by_contra never
  have sound (index : Nat) := sound_of_reachable (run.reachable reachable index)
  have scans : ∀ index, first ≤ index → ((run.stateAt index).pc t).raised = true :=
    run.keeps (fun now => (now.pc t).raised = true) raised fun index after raised =>
      (moves run index).raised_stays raised (waits (index + 1) (Nat.le_succ_of_le after))
  have up (index : Nat) (after : first ≤ index) : (run.stateAt index).writing = true :=
    (sound index).locked.up_of_raised (scans index after)
  -- Whoever gets into the loop of `begin_read` now backs off for ever, so nobody does.
  have outside (index : Nat) (after : first ≤ index) (u : Thread) (read : ReadCall) (count : Nat) :
      ¬ ((run.stateAt index).pc u).spins read count := fun spins =>
    never ⟨u, read, count, fair.backs_off_forever (fun later past => up later (after.trans past))
      spins⟩
  have registers (index : Nat) (after : first ≤ index) (u : Thread) (call : ReadCall) :
      ¬ ((run.stateAt index).pc u = .push call ∨
        ∃ count, (run.stateAt index).pc u = .release call count) := fun here => by
    obtain ⟨later, count, past, spins⟩ := fair.reaches_loop here
    exact outside later (after.trans past) u call count spins
  have locks (index : Nat) (after : first ≤ index) (u : Thread)
      (owner : (run.stateAt index).registryLock = some u) : u = t := by
    have mine := Pc.ownsWrite_of_raised (scans index after)
    rcases Pc.ownsWrite_or_registers (((sound index).registered.lock_iff u).mp owner) with
      owns | ⟨call, here⟩
    · exact (sound index).locked.owner_unique (.inl owns) (.inl mine)
    · exact absurd here (registers index after u call)
  -- From where the last old section is closed the counters stay at zero.
  obtain ⟨last, after, closed⟩ := fair.sections_end reachable up
  refine fair.scan_ends reachable (fun index past => scans index (after.trans past))
    (fun index past => ?_) (fun index past => locks index (after.trans past))
    (fun index past u call here => registers index (after.trans past) u call (.inl here))
    fun index past => waits index (after.trans past)
  exact counter_eq_zero_of_closed (sound index).registered (sound index).accounted
    (closed index past) (outside index (after.trans past))

/-- So is any writer that has the mutex and waits for ever. -/
theorem jostled (fair : FairRun run) (reachable : (container kind Thread w).Reachable s)
    (owns : ((run.stateAt first).pc t).ownsWrite = true) {id : Nat}
    (waits : ∀ index, first ≤ index → (run.stateAt index).BeginsWrite t id) :
    ∃ u read count, ∀ index, ∃ later, index ≤ later ∧
      (run.stateAt later).pc u = .backOff read count := by
  obtain ⟨call, writes⟩ := waits first (Nat.le_refl _)
  by_cases raised : ((run.stateAt first).pc t).raised = true
  · exact fair.jostled_of_raised reachable raised waits
  · obtain ⟨method, here⟩ : ∃ method, (run.stateAt first).pc t = .raise method := by
      cases here : (run.stateAt first).pc t <;>
        simp_all [Pc.raised, Pc.ownsWrite, Pc.beginsWrite]
    obtain ⟨later, past, raised⟩ := fair.goes_on (fun now => (now.pc t).raised = true) here rfl
      fun index _ there => by simp [advance, there, Pc.raised]
    exact fair.jostled_of_raised reachable raised fun index after => waits index (past.trans after)

/-- A lock that is being dropped is unlocked. -/
theorem unlocks_of_drops (fair : FairRun run) {id : Nat}
    (here : (run.stateAt first).pc t = .lower id ∨ (run.stateAt first).pc t = .unlock id) :
    ∃ later, first ≤ later ∧ (run.stateAt later).write = none := by
  have unlock {index : Nat} (after : first ≤ index)
      (here : (run.stateAt index).pc t = .unlock id) :
      ∃ later, first ≤ later ∧ (run.stateAt later).write = none := by
    obtain ⟨later, past, free⟩ := fair.goes_on (fun now => now.write = none) here rfl
      fun index _ there => by simp [advance, there]
    exact ⟨later, after.trans past, free⟩
  rcases here with here | here
  · obtain ⟨later, past, lowered⟩ := fair.goes_on (fun now => now.pc t = .unlock id) here rfl
      fun index _ there => by simp [advance, there]
    exact unlock past lowered
  · exact unlock (Nat.le_refl _) here

/-- A write section that is open is closed, and the mutex unlocked. -/
theorem unlocks (fair : FairRun run) {id : Nat} (isOpen : (run.stateAt first).OpenWrite id) :
    ∃ later, first ≤ later ∧ (run.stateAt later).write = none := by
  obtain ⟨last, after, closed⟩ := fair.writes_end first id isOpen
  obtain ⟨index, past, before, ended⟩ :=
    run.exists_end (fun now => now.OpenWrite id) isOpen after closed
  obtain ⟨u, here⟩ := (moves run index).lowers_of_closed before ended
  obtain ⟨later, since, free⟩ := fair.unlocks_of_drops (.inl here)
  exact ⟨later, past.trans ((Nat.le_succ index).trans since), free⟩

/-- A thread that keeps the mutex for ever does not get further than `begin_write`. -/
theorem keeps_waiting (fair : FairRun run) (reachable : (container kind Thread w).Reachable s)
    (owner : ∀ index, first ≤ index → (run.stateAt index).write = some t) :
    ((run.stateAt first).pc t).ownsWrite = true ∧
      ∃ id, ∀ index, first ≤ index → (run.stateAt index).BeginsWrite t id := by
  have keeps {index : Nat} (after : first ≤ index) :
      ¬ ∃ later, index ≤ later ∧ (run.stateAt later).write = none := by
    rintro ⟨later, past, free⟩
    cases free.symm.trans (owner later (after.trans past))
  have shut {index id : Nat} (after : first ≤ index) : ¬ (run.stateAt index).OpenWrite id :=
    fun isOpen => keeps after (fair.unlocks isOpen)
  have sound := sound_of_reachable (run.reachable reachable first)
  obtain ⟨owns, id, begins⟩ : ((run.stateAt first).pc t).ownsWrite = true ∧
      ∃ id, (run.stateAt first).BeginsWrite t id := by
    rcases (sound.locked.owner_iff t).mp (owner first (Nat.le_refl _)) with owns | ⟨guard, live, -⟩
    · refine ⟨owns, ?_⟩
      cases here : (run.stateAt first).pc t with
      | raise call | scanLock call | scan call _ | scanned call _ =>
          exact ⟨call.id, by rw [here]; rfl, by rw [here]; rfl⟩
      | writing call => exact absurd (.inl ⟨t, call, here, rfl⟩) (shut (Nat.le_refl _))
      | lower id => exact absurd (fair.unlocks_of_drops (.inl here)) (keeps (Nat.le_refl _))
      | unlock id => exact absurd (fair.unlocks_of_drops (.inr here)) (keeps (Nat.le_refl _))
      | _ => rw [here] at owns; cases owns
    · exact absurd (.inr ⟨guard, live, rfl⟩) (shut (Nat.le_refl _))
  refine ⟨owns, id, run.keeps (fun now => now.BeginsWrite t id) begins fun index after before => ?_⟩
  exact ((moves run index).beginsWrite_or_opens before).resolve_right
    (shut (Nat.le_succ_of_le after))

/-- If the mutex is not free again and again, one thread keeps it. -/
theorem exists_keeper (run : (container kind Thread w).Forever s)
    (held : ∀ index, first ≤ index → (run.stateAt index).write ≠ none) :
    ∃ t, ∀ index, first ≤ index → (run.stateAt index).write = some t := by
  obtain ⟨t, owner⟩ := Option.ne_none_iff_exists'.mp (held first (Nat.le_refl _))
  exact ⟨t, run.keeps (fun now => now.write = some t) owner fun index after before =>
    (moves run index).write_stays before (held (index + 1) (Nat.le_succ_of_le after))⟩

end FairRun

open State in
/-- Where a writer and a reader keep each other out and nothing else happens, the run
is fair. -/
theorem FairRun.of_stalled {Thread : Type} [DecidableEq Thread] {w : Nat} {kind : Kind}
    {s : State Thread w} (reachable : (container kind Thread w).Reachable s)
    {run : (container kind Thread w).Forever s} {t u : Thread} {call : WriteCall}
    {read : ReadCall} (writer : run.Recurs (.step t)) (reader : run.Recurs (.step u))
    (stalled : ∀ index, (run.stateAt index).Stalled t u call read)
    (raised : (s.pc t).raised = true) : FairRun run where
  steps v := by
    by_cases first : v = t
    · exact first ▸ writer.fair
    · by_cases second : v = u
      · exact second ▸ reader.fair
      · refine fun index => ⟨index, Nat.le_refl _, .inr ?_⟩
        rintro ⟨next, stepped⟩
        have idle := (stalled index).others v first second
        have advanced : (run.stateAt index).advance v = some next := stepped
        simp [advance, idle] at advanced
  reads_end index id isOpen := absurd isOpen.readSectionOpen (stalled index).not_readSectionOpen
  writes_end index id isOpen := by
    have sound := sound_of_reachable (run.reachable reachable index)
    have scans : ((run.stateAt index).pc t).raised = true :=
      run.keeps (fun now => (now.pc t).raised = true) (run.stateZero.symm ▸ raised)
        (fun index _ raised =>
          (FairRun.moves run index).raised_stays raised (stalled (index + 1)).writes)
        index (Nat.zero_le index)
    have owns := Pc.ownsWrite_of_raised scans
    rcases isOpen with ⟨v, other, here, -⟩ | ⟨guard, live, -⟩
    · have same : v = t :=
        sound.locked.owner_unique (.inl (by rw [here]; rfl)) (.inl owns)
      have writes := (stalled index).writes.2
      rw [← same, here] at writes
      cases writes
    · exact absurd (sound.locked.guards_exclude t owns) (List.ne_nil_of_mem live)

/-- A run of a `push` and a first `len` that is fair and in which neither gets in. -/
theorem exists_fair_livelock :
    ∃ (s : State (Fin 2) 64) (run : (container .vec (Fin 2) 64).Forever s),
      (container .vec (Fin 2) 64).Reachable s ∧ FairRun run ∧ (s.pc 0).raised = true ∧
        (s.pc 1).spins ⟨0, .len⟩ 0 ∧
        ∀ index, (run.stateAt index).Stalled 0 1 ⟨1, .push⟩ ⟨0, .len⟩ := by
  obtain ⟨s, reachable, met⟩ := System.exists_reachable_of_execute
    (fun s : State (Fin 2) 64 => decide (s.pc 0 = .scanLock ⟨1, .push⟩ ∧
      s.pc 1 = .add ⟨0, .len⟩ 0 ∧ s.readGuards = []))
    (show (System.execute (State.step .vec) (.new (Fin 2) 64)
      [.read 1 .len, .step 1, .step 1, .step 1, .step 1, .write 0 .push, .step 0,
        .step 0]).any _ = true by decide +kernel)
  obtain ⟨scans, spins, guards⟩ := of_decide_eq_true met
  have nobody : ∀ v : Fin 2, v ≠ 0 → v ≠ 1 → s.pc v = .idle := by
    intro v notWriter notReader
    omega
  have raised : (s.pc 0).raised = true := by rw [scans]; rfl
  obtain ⟨run, writer, reader, stalled⟩ :=
    exists_stalled_forever reachable scans spins nobody guards
  exact ⟨s, run, reachable, .of_stalled reachable writer reader stalled raised, raised, .inl spins,
    stalled⟩

open State in
/-- Why a `begin_write` may never return, in a run that is fair: some reader backs
off for ever, or the mutex is free again and again and the thread does not get it. -/
theorem writer_starves_only_behind {Thread : Type} [DecidableEq Thread] {w : Nat}
    {kind : Kind} {s : State Thread w} (reachable : (container kind Thread w).Reachable s)
    {run : (container kind Thread w).Forever s} (fair : FairRun run) {t : Thread}
    {id first : Nat} (waits : ∀ index, first ≤ index → (run.stateAt index).BeginsWrite t id) :
    (∃ u read count, ∀ index, ∃ later, index ≤ later ∧
        (run.stateAt later).pc u = .backOff read count) ∨
      (∀ index, first ≤ index → ∃ call, (run.stateAt index).pc t = .acquire call) ∧
        ∀ index, ∃ later, index ≤ later ∧ (run.stateAt later).write = none := by
  by_cases owned : ∃ index, first ≤ index ∧ ((run.stateAt index).pc t).ownsWrite = true
  · obtain ⟨index, after, owns⟩ := owned
    exact .inl (fair.jostled reachable owns fun later past => waits later (after.trans past))
  by_cases freed : ∀ index, ∃ later, index ≤ later ∧ (run.stateAt later).write = none
  · refine .inr ⟨fun index after => ?_, freed⟩
    exact (Pc.ownsWrite_or_acquires (waits index after).2).resolve_left fun owns =>
      owned ⟨index, after, owns⟩
  · left
    obtain ⟨last, held⟩ := not_forall.mp freed
    obtain ⟨keeper, owner⟩ := FairRun.exists_keeper run fun index after free =>
      held ⟨index, after, free⟩
    obtain ⟨owns, id, begins⟩ := fair.keeps_waiting reachable owner
    exact fair.jostled reachable owns begins

/-- A `push` and a first `len` that go on for ever, each because of the other: of what can
keep a `push` in its `begin_write` it is the back-offs. -/
theorem push_starves_behind_len :
    ∃ (s : State (Fin 2) 64) (run : (container .vec (Fin 2) 64).Forever s), FairRun run ∧
      (∀ index, (run.stateAt index).BeginsWrite 0 1) ∧
        ∃ u read count, ∀ index, ∃ later, index ≤ later ∧
          (run.stateAt later).pc u = .backOff read count := by
  obtain ⟨s, run, reachable, fair, raised, -, stalled⟩ := exists_fair_livelock
  have waits (index : Nat) : (run.stateAt index).BeginsWrite 0 1 := (stalled index).writes
  refine ⟨s, run, fair, waits, ?_⟩
  rcases writer_starves_only_behind reachable fair (fun index (_ : 0 ≤ index) => waits index) with
    jostled | ⟨acquires, -⟩
  · exact jostled
  · obtain ⟨call, here⟩ := acquires 0 (Nat.le_refl _)
    rw [← run.stateZero, here] at raised
    cases raised

open State in
/-- Why a `begin_read` may never return, in a run that is fair: a writer that has the
mutex does not return from its `begin_write` either, or writers lower the flag again
and again, or on its first read the thread does not get the lock of the registry. -/
theorem reader_starves_only_behind {Thread : Type} [DecidableEq Thread] {w : Nat}
    {kind : Kind} {s : State Thread w} (reachable : (container kind Thread w).Reachable s)
    {run : (container kind Thread w).Forever s} (fair : FairRun run) {u : Thread}
    {id first : Nat} (waits : ∀ index, first ≤ index → (run.stateAt index).BeginsRead u id) :
    (∃ t other last, ∀ index, last ≤ index →
        (run.stateAt index).write = some t ∧ (run.stateAt index).BeginsWrite t other) ∨
      (∀ index, ∃ later, index ≤ later ∧ (run.stateAt later).writing = true ∧
        (run.stateAt (later + 1)).writing = false) ∨
      ∃ call last, ∀ index, last ≤ index → (run.stateAt index).pc u = .register call := by
  by_cases stuck : ∃ call last, ∀ index, last ≤ index → (run.stateAt index).pc u = .register call
  · exact .inr (.inr stuck)
  by_cases lowers : ∀ index, ∃ later, index ≤ later ∧ (run.stateAt later).writing = true ∧
      (run.stateAt (later + 1)).writing = false
  · exact .inr (.inl lowers)
  obtain ⟨last, stays⟩ := not_forall.mp lowers
  have begins : (run.stateAt (first + last)).BeginsRead u id := waits _ (Nat.le_add_right _ _)
  obtain ⟨looping, call, count, after, spins⟩ := fair.loops begins fun call index _ => by
    by_contra registers
    exact stuck ⟨call, index, fun later past => by_contra fun left =>
      registers ⟨later, past, left⟩⟩
  by_cases up : ∃ index, looping ≤ index ∧ (run.stateAt index).writing = true
  · left
    obtain ⟨raised, past, up⟩ := up
    have always : ∀ index, raised ≤ index → (run.stateAt index).writing = true :=
      run.keeps (fun now => now.writing = true) up fun index since up =>
        Bool.eq_true_of_not_eq_false fun down => stays ⟨index, by omega, up, down⟩
    obtain ⟨t, owner⟩ := FairRun.exists_keeper run fun index since free => by
      have sound := sound_of_reachable (run.reachable reachable index)
      exact Bool.noConfusion ((sound.locked.flag_free free).symm.trans (always index since))
    obtain ⟨-, other, writes⟩ := fair.keeps_waiting reachable owner
    exact ⟨t, other, raised, fun index since => ⟨owner index since, writes index since⟩⟩
  · obtain ⟨later, past, here⟩ := fair.opens (fun index past =>
      Bool.eq_false_of_not_eq_true fun raised => up ⟨index, past, raised⟩) spins
    have closed := (waits later (by omega)).2.2
    rw [here] at closed
    cases closed

/-- The same run from the side of the `len`: of what can keep it in its `begin_read` it is
a writer that never gets through its own `begin_write`. -/
theorem len_starves_behind_push :
    ∃ (s : State (Fin 2) 64) (run : (container .vec (Fin 2) 64).Forever s), FairRun run ∧
      (∀ index, (run.stateAt index).BeginsRead 1 0) ∧
        ∃ t other last, ∀ index, last ≤ index →
          (run.stateAt index).write = some t ∧ (run.stateAt index).BeginsWrite t other := by
  obtain ⟨s, run, reachable, fair, -, spins, stalled⟩ := exists_fair_livelock
  have waits (index : Nat) : (run.stateAt index).BeginsRead 1 0 := (stalled index).reads
  refine ⟨s, run, fair, waits, ?_⟩
  rcases reader_starves_only_behind reachable fair (fun index (_ : 0 ≤ index) => waits index) with
    writer | lowers | ⟨call, last, registers⟩
  · exact writer
  · obtain ⟨later, -, -, down⟩ := lowers 0
    cases (stalled (later + 1)).up.symm.trans down
  · have loops : ((run.stateAt last).pc 1).spins ⟨0, .len⟩ 0 :=
      FairRun.spins_on run (fun index _ => (stalled index).up) (run.stateZero.symm ▸ spins) last
        (Nat.zero_le last)
    rw [registers last (Nat.le_refl _)] at loops
    simp [Pc.spins] at loops

end DarkStd.Sync
