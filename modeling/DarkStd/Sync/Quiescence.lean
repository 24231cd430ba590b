import Mathlib.Algebra.BigOperators.Group.Finset.Basic
import Mathlib.Algebra.Order.BigOperators.Group.Finset
import Mathlib.Data.Prod.Lex
import DarkStd.Sync.Reentrancy

/-!
# A container comes to rest

If no thread is inside a call while it holds a guard, the calls that have been
started can all be finished. The schedule lets the writers through first: a
reader is stepped only to take its section or its registration out of their
way, never from `add`, so no counter is incremented behind a scan. Without
writers the flag is down, and the readers follow one after another.
-/

namespace DarkStd.Sync

open DarkStd.Semantics

/-- The thread that acts, or that is handed an iterator. -/
@[simp] def Action.thread {Thread : Type} : Action Thread → Thread
  | .read t _ | .write t _ | .step t | .leaveRead t _ | .leaveWrite t _ | .dropRead t _
  | .dropWrite t _ | .send _ t => t

/-- A step of a call already started, or the drop of a guard. -/
@[simp] def Action.finishes {Thread : Type} : Action Thread → Prop
  | .read .. | .write .. | .send .. => False
  | .step .. | .leaveRead .. | .leaveWrite .. | .dropRead .. | .dropWrite .. => True

/-- Outside every method of the container; a guard may be in the middle of its drop. -/
@[grind] def Pc.outside : Pc → Bool
  | .idle | .lower _ | .unlock _ => true
  | _ => false

namespace State

variable {Thread : Type} {w : Nat}

/-- The thread is in no call of the container and holds no guard of it. -/
def Uninvolved (s : State Thread w) (t : Thread) : Prop :=
  s.pc t = .idle ∧ ¬ s.HoldsGuard t

/-- No thread is inside a method while it holds a guard. -/
def HoldersOutside (s : State Thread w) : Prop :=
  ∀ t, s.HoldsGuard t → (s.pc t).outside = true

/-- Every call has returned and every guard has been dropped. -/
def Finished (s : State Thread w) : Prop :=
  (∀ t, s.pc t = .idle) ∧ s.readGuards = [] ∧ s.writeGuards = []

/-- Nothing is held, raised or counted. -/
structure Quiescent (s : State Thread w) : Prop where
  returned : ∀ t, s.pc t = .idle
  readGuards : s.readGuards = []
  writeGuards : s.writeGuards = []
  write : s.write = none
  registryLock : s.registryLock = none
  writing : s.writing = false
  counters : ∀ counter ∈ s.registry, counter = 0

theorem Quiescent.new : (State.new Thread w).Quiescent where
  returned _ := rfl
  readGuards := rfl
  writeGuards := rfl
  write := rfl
  registryLock := rfl
  writing := rfl
  counters := by simp [State.new]

/-- Counters that nothing pins are zero. -/
theorem counter_eq_zero {s : State Thread w} (registered : s.Registered)
    (accounted : s.Accounted) (guards : s.readGuards = [])
    (calls : ∀ t, (s.pc t).pins = false) : ∀ counter ∈ s.registry, counter = 0 := by
  intro counter counted
  obtain ⟨count, below, rfl⟩ := List.mem_iff_getElem.mp counted
  obtain ⟨t, slot⟩ := registered.slot_surjective count below
  have counter := accounted.counter_eq t count slot
  rw [List.getElem?_eq_getElem below, Option.some.injEq] at counter
  simp [counter, sections, calls, guards, guardsOn]

/-- Once all calls have returned, the invariants leave nothing behind. -/
theorem Finished.quiescent {s : State Thread w} (finished : s.Finished)
    (registered : s.Registered) (accounted : s.Accounted) (locked : s.Locked) :
    s.Quiescent := by
  obtain ⟨returned, readGuards, writeGuards⟩ := finished
  have write : s.write = none := by
    refine Option.eq_none_iff_forall_ne_some.mpr fun t owner => ?_
    rcases (locked.owner_iff t).mp owner with owns | ⟨guard, live, -⟩
    · simp [returned, Pc.ownsWrite] at owns
    · simp [writeGuards] at live
  have registryLock : s.registryLock = none := by
    refine Option.eq_none_iff_forall_ne_some.mpr fun t owner => ?_
    have owns := (registered.lock_iff t).mp owner
    simp [returned, Pc.ownsRegistry] at owns
  exact ⟨returned, readGuards, writeGuards, write, registryLock, locked.flag_free write,
    counter_eq_zero registered accounted readGuards fun t => by rw [returned]; rfl⟩

/-- The sum of a rank over the threads that may have something left to do. -/
def total (threads : Finset Thread) (rank : Pc → Nat) (s : State Thread w) : Nat :=
  ∑ t ∈ threads, rank (s.pc t)

/-- A step that moves one thread changes the sum by what it changes of that thread. -/
theorem total_add {s next : State Thread w} {threads : Finset Thread} (rank : Pc → Nat)
    {t : Thread} (involved : t ∈ threads) (others : ∀ u, u ≠ t → next.pc u = s.pc u) :
    total threads rank next + rank (s.pc t) = total threads rank s + rank (next.pc t) :=
  System.sum_add_of_others involved fun u other => congrArg rank (others u other)

variable [DecidableEq Thread]
variable {kind : Kind} {s next : State Thread w} {action : Action Thread}
variable {threads : Finset Thread}

/-- A step moves no thread but its own. -/
theorem Moves.pc_of_ne (move : Moves kind s action next) {u : Thread}
    (other : u ≠ action.thread) : next.pc u = s.pc u := by
  cases move with
  | dropRead | send => rfl
  | _ => exact goto_pc_of_ne _ _ _ _ other

/-- A step gives guards to no thread but its own. -/
theorem Moves.holdsGuard_of_ne (move : Moves kind s action next) {u : Thread}
    (other : u ≠ action.thread) (holds : next.HoldsGuard u) : s.HoldsGuard u := by
  rcases holds with ⟨guard, live, held⟩ | ⟨guard, live, held⟩
  · left
    cases move with
    | returnRead here =>
        rcases List.mem_cons.mp live with rfl | live
        · exact absurd held.symm other
        · exact ⟨guard, live, held⟩
    | dropRead idle => exact ⟨guard, List.mem_of_mem_erase live, held⟩
    | send idle =>
        rcases List.mem_cons.mp live with rfl | live
        · exact absurd held.symm other
        · exact ⟨guard, List.mem_of_mem_erase live, held⟩
    | _ => exact ⟨guard, live, held⟩
  · right
    cases move with
    | returnWrite here =>
        rcases List.mem_cons.mp live with rfl | live
        · exact absurd held.symm other
        · exact ⟨guard, live, held⟩
    | dropWrite idle => exact ⟨guard, List.mem_of_mem_erase live, held⟩
    | _ => exact ⟨guard, live, held⟩

theorem Moves.uninvolved (move : Moves kind s action next) {u : Thread}
    (other : u ≠ action.thread) (uninvolved : s.Uninvolved u) : next.Uninvolved u :=
  ⟨(move.pc_of_ne other).trans uninvolved.1,
    fun holds => uninvolved.2 (move.holdsGuard_of_ne other holds)⟩

/-- A thread that is inside a method after its step was inside before it, or has
just called, and has been given no guard. -/
theorem Moves.inside_before (move : Moves kind s action next)
    (inside : (next.pc action.thread).outside = false) :
    (next.readGuards = s.readGuards ∧ next.writeGuards = s.writeGuards) ∧
      ((s.pc action.thread).outside = false ∨ (∃ t method, action = .read t method) ∨
        ∃ t method, action = .write t method) := by
  cases move with
  | read | write | send | dropRead | returnRead | returnWrite | unlock | lower | dropWrite
  | leaveRead | leaveWrite => simp_all [Pc.outside]
  | _ => simp_all [Pc.outside]

theorem Moves.holdersOutside (move : Moves kind s action next) (finishes : action.finishes)
    (outside : s.HoldersOutside) : next.HoldersOutside := by
  intro u holds
  by_cases actor : u = action.thread
  · by_contra inside
    obtain ⟨⟨readGuards, writeGuards⟩, before⟩ :=
      move.inside_before (by simpa [actor] using inside)
    rw [HoldsGuard, HoldsReadGuard, readGuards, writeGuards] at holds
    rcases before with before | ⟨t, method, rfl⟩ | ⟨t, method, rfl⟩
    · rw [← actor, outside u holds] at before
      cases before
    · exact finishes
    · exact finishes
  · rw [move.pc_of_ne actor]
    exact outside u (move.holdsGuard_of_ne actor holds)

end State

open State

/-- The steps that finish what the given threads have started. -/
def finishing (kind : Kind) {Thread : Type} [DecidableEq Thread] (w : Nat)
    (threads : Finset Thread) : System (State Thread w) (Action Thread) :=
  (container kind Thread w).restrict fun _ action => action.finishes ∧ action.thread ∈ threads

namespace State

variable {Thread : Type} [DecidableEq Thread] {w : Nat}
variable {kind : Kind} {s next : State Thread w} {action : Action Thread}
variable {threads : Finset Thread}

/-- What holds while the given threads finish what they have started. -/
structure Settling (kind : Kind) (threads : Finset Thread) (s : State Thread w) : Prop where
  reachable : (container kind Thread w).Reachable s
  holdersOutside : s.HoldersOutside
  covered : ∀ t, t ∉ threads → s.Uninvolved t

theorem Settling.preserved (settling : s.Settling kind threads)
    (stepped : s.step kind action = some next) (finishes : action.finishes)
    (involved : action.thread ∈ threads) : next.Settling kind threads := by
  have move := moves_of_step stepped
  have taken : (container kind Thread w).Step s action next := stepped
  refine ⟨.step settling.reachable taken, move.holdersOutside finishes settling.holdersOutside,
    fun t missing => move.uninvolved ?_ (settling.covered t missing)⟩
  rintro rfl
  exact missing involved

theorem Settling.involved (settling : s.Settling kind threads) {t : Thread}
    (busy : s.pc t ≠ .idle) : t ∈ threads := by
  by_contra missing
  exact busy (settling.covered t missing).1

section Drain

/-- How far a write call is from its return, scans apart. -/
def writeRank : Pc → Nat
  | .acquire _ => 10
  | .raise _ => 9
  | .scanned _ false => 8
  | .scanLock _ => 7
  | .scan _ _ => 6
  | .scanned _ true => 5
  | .writing _ => 4
  | .lower _ => 2
  | .unlock _ => 1
  | _ => 0

/-- How far a read call is from letting a writer through. -/
def pinRank : Pc → Nat
  | .load _ _ => 4
  | .backOff _ _ => 3
  | .push _ | .reading _ _ => 2
  | .release _ _ => 1
  | _ => 0

/-- How many counters a scan has still to load. -/
def scanLeft (length : Nat) : Pc → Nat
  | .scan _ next => length - next
  | _ => 0

/-- How far the drop of a `WriteLock` is from its end. -/
def dropRank : Pc → Nat
  | .lower _ => 2
  | .unlock _ => 1
  | _ => 0

/-- What is left to do before the last writer has returned: first for the
writers, then for the readers in their way, last for the running scan. -/
def drainRank (threads : Finset Thread) (s : State Thread w) : Nat × Nat × Nat :=
  (total threads writeRank s + 3 * s.writeGuards.length,
    total threads pinRank s + s.readGuards.length,
    total threads (scanLeft s.registry.length) s)

/-- Ranks are compared writers first. -/
def DrainLess : Nat × Nat × Nat → Nat × Nat × Nat → Prop :=
  Prod.Lex (· < ·) (Prod.Lex (· < ·) (· < ·))

theorem drainLess_wf : WellFounded DrainLess :=
  WellFounded.prod_lex Nat.lt_wfRel.wf (WellFounded.prod_lex Nat.lt_wfRel.wf Nat.lt_wfRel.wf)

/-- Where a reader waits until the writers are through. -/
def waits : Pc → Bool
  | .slot _ | .register _ | .add _ _ => true
  | _ => false

/-- Every finishing step brings the last writer's return closer, unless a reader
enters or a scan fails. -/
theorem Moves.drainRank_lt (move : Moves kind s action next) (finishes : action.finishes)
    (involved : action.thread ∈ threads) (passes : waits (s.pc action.thread) = false)
    (zero : ∀ call position counter, s.pc action.thread = .scan call position →
      s.registry[position]? = some counter → counter = 0) :
    DrainLess (next.drainRank threads) (s.drainRank threads) := by
  have others := fun u => move.pc_of_ne (u := u)
  have writes := total_add writeRank involved others
  have pins := total_add pinRank involved others
  have scans := total_add (scanLeft s.registry.length) involved others
  unfold DrainLess drainRank
  rw [Prod.lex_def, Prod.lex_def]
  cases move with
  | @scanZero t call position here loaded =>
      obtain ⟨below, -⟩ := List.getElem?_eq_some_iff.mp loaded
      simp_all [writeRank, pinRank, scanLeft]
      omega
  | @dropRead t guard idle live =>
      have length := List.length_erase_of_mem live
      have fewer := Nat.sub_one_lt_of_lt (List.length_pos_of_mem live)
      simp_all [writeRank, pinRank, scanLeft]
  | @dropWrite t guard idle live =>
      have length := List.length_erase_of_mem live
      have some := List.length_pos_of_mem live
      simp_all [writeRank, pinRank, scanLeft]
      omega
  | _ =>
      simp_all [writeRank, pinRank, scanLeft, waits] <;> omega

omit [DecidableEq Thread] in
/-- With no reader in the way of a scan, every counter it loads is zero. -/
theorem zero_of_unpinned (registered : s.Registered) (accounted : s.Accounted)
    (unpinned : ∀ t, pinRank (s.pc t) = 0) (guards : s.readGuards = []) {position : Nat}
    {counter : BitVec w} (loaded : s.registry[position]? = some counter) : counter = 0 := by
  refine counter_eq_zero registered accounted guards (fun u => ?_) counter
    (List.mem_of_getElem? loaded)
  have unpinned := unpinned u
  cases here : s.pc u <;> simp_all [pinRank, Pc.pins]

/-- Then nothing stops the owner of the write mutex before the body of its method. -/
theorem advance_of_owner (registered : s.Registered) (locked : s.Locked)
    (unpinned : ∀ t, pinRank (s.pc t) = 0) {t : Thread} (owns : (s.pc t).ownsWrite = true)
    (outside : ∀ call, s.pc t ≠ .writing call) : ∃ next, s.advance t = some next := by
  cases here : s.pc t with
  | scanLock call =>
      -- Whoever holds the registry lock registers a reader or is the one writer.
      have free : s.registryLock = none := by
        refine Option.eq_none_iff_forall_ne_some.mpr fun u owner => ?_
        have registers := (registered.lock_iff u).mp owner
        have unpinned := unpinned u
        have same : (s.pc u).ownsWrite = true → u = t :=
          fun owns' => locked.owner_unique (.inl owns') (.inl owns)
        cases here' : s.pc u <;> simp_all [pinRank, Pc.ownsRegistry, Pc.ownsWrite]
      exact ⟨_, by simp only [advance, here, free]; rfl⟩
  | scan call position =>
      simp only [advance, here]
      split
      · exact ⟨_, rfl⟩
      · split <;> exact ⟨_, rfl⟩
  | writing call => exact absurd here (outside call)
  | raise _ | scanned _ _ | lower _ | unlock _ => exact ⟨_, by simp only [advance, here]; rfl⟩
  | _ => simp [here, Pc.ownsWrite] at owns

/-- Every write call has returned and every write guard has been dropped. -/
def WritersDone (s : State Thread w) : Prop :=
  (∀ t, writeRank (s.pc t) = 0) ∧ s.writeGuards = []

/-- Some finishing step brings the state closer to the return of the last writer. -/
def DrainsOn (kind : Kind) (threads : Finset Thread) (s : State Thread w) : Prop :=
  ∃ action next, s.step kind action = some next ∧ action.finishes ∧
    action.thread ∈ threads ∧ DrainLess (next.drainRank threads) (s.drainRank threads)

theorem drainsOn_of_step (action : Action Thread)
    (enabled : ∃ next, s.step kind action = some next) (finishes : action.finishes)
    (involved : action.thread ∈ threads) (passes : waits (s.pc action.thread) = false)
    (zero : ∀ call position counter, s.pc action.thread = .scan call position →
      s.registry[position]? = some counter → counter = 0) : s.DrainsOn kind threads := by
  obtain ⟨next, stepped⟩ := enabled
  exact ⟨action, next, stepped, finishes, involved,
    (moves_of_step stepped).drainRank_lt finishes involved passes zero⟩

namespace Settling

variable (settling : s.Settling kind threads)
include settling

/-- A reader in the way of the writers can be taken out of it. -/
theorem drainsOn_of_pinned {t : Thread} (pinned : 0 < pinRank (s.pc t)) :
    s.DrainsOn kind threads := by
  have involved : t ∈ threads := settling.involved fun idle => by simp [idle, pinRank] at pinned
  cases here : s.pc t with
  | reading call count =>
      obtain ⟨returned, left⟩ := exists_leaveRead here
      exact drainsOn_of_step (.leaveRead t returned) left trivial involved
        (by simp [here, waits]) (by simp [here])
  | push _ | release _ _ | load _ _ | backOff _ _ =>
      have enabled := advance_of_entering (s := s) (t := t) (by rw [here]; rfl) (by simp [here])
      exact drainsOn_of_step (.step t) enabled trivial involved
        (by simp [here, waits]) (by simp [here])
  | _ => simp [here, pinRank] at pinned

/-- A read guard can be dropped, after the drop its holder may be busy with. -/
theorem drainsOn_of_readGuard {guard : ReadGuard Thread} (live : guard ∈ s.readGuards) :
    s.DrainsOn kind threads := by
  have involved : guard.holder ∈ threads := by
    by_contra missing
    exact (settling.covered _ missing).2 (.inl ⟨guard, live, rfl⟩)
  have outside := settling.holdersOutside _ (.inl ⟨guard, live, rfl⟩)
  cases here : s.pc guard.holder with
  | idle =>
      exact drainsOn_of_step (.dropRead guard.holder guard.id) (exists_dropRead live here) trivial
        involved (by simp [here, waits]) (by simp [here])
  | lower id =>
      exact drainsOn_of_step (.step guard.holder) ⟨_, by simp only [step, advance, here]; rfl⟩
        trivial involved (by simp [here, waits]) (by simp [here])
  | unlock id =>
      exact drainsOn_of_step (.step guard.holder) ⟨_, by simp only [step, advance, here]; rfl⟩
        trivial involved (by simp [here, waits]) (by simp [here])
  | _ => simp [here, Pc.outside] at outside

/-- So can a write guard: its holder owns the mutex through the guard alone. -/
theorem drainsOn_of_writeGuard {guard : WriteGuard Thread} (live : guard ∈ s.writeGuards) :
    s.DrainsOn kind threads := by
  have involved : guard.holder ∈ threads := by
    by_contra missing
    exact (settling.covered _ missing).2 (.inr ⟨guard, live, rfl⟩)
  have outside := settling.holdersOutside _ (.inr ⟨guard, live, rfl⟩)
  have exclude := (locked_of_reachable settling.reachable).guards_exclude guard.holder
  cases here : s.pc guard.holder with
  | idle =>
      exact drainsOn_of_step (.dropWrite guard.holder guard.id) (exists_dropWrite live here)
        trivial involved (by simp [here, waits]) (by simp [here])
  | lower id => exact absurd (exclude (by rw [here]; rfl)) (List.ne_nil_of_mem live)
  | unlock id => exact absurd (exclude (by rw [here]; rfl)) (List.ne_nil_of_mem live)
  | _ => simp [here, Pc.outside] at outside

/-- With no reader in its way, the owner of the write mutex gets on. -/
theorem drainsOn_of_owner (unpinned : ∀ t, pinRank (s.pc t) = 0) (guards : s.readGuards = [])
    {t : Thread} (owns : (s.pc t).ownsWrite = true) : s.DrainsOn kind threads := by
  have registered := registered_of_reachable settling.reachable
  have locked := locked_of_reachable settling.reachable
  have accounted := accounted_of_reachable settling.reachable
  have involved : t ∈ threads := settling.involved fun idle => by simp [idle, Pc.ownsWrite] at owns
  have zero : ∀ call position counter, s.pc t = .scan call position →
      s.registry[position]? = some counter → counter = 0 := fun _ _ _ _ loaded =>
    zero_of_unpinned registered accounted unpinned guards loaded
  by_cases writing : ∃ call, s.pc t = .writing call
  · obtain ⟨call, here⟩ := writing
    obtain ⟨returned, left⟩ := exists_leaveWrite here
    exact drainsOn_of_step (.leaveWrite t returned) left trivial involved
      (by simp [here, waits]) zero
  · push Not at writing
    have passes : waits (s.pc t) = false := by
      cases here : s.pc t <;> simp_all [waits, Pc.ownsWrite]
    exact drainsOn_of_step (.step t) (advance_of_owner registered locked unpinned owns writing)
      trivial involved passes zero

/-- A free write mutex is there to be taken. -/
theorem drainsOn_of_acquire (guards : s.writeGuards = [])
    (unowned : ∀ u, (s.pc u).ownsWrite = false) {t : Thread} (busy : writeRank (s.pc t) ≠ 0) :
    s.DrainsOn kind threads := by
  have locked := locked_of_reachable settling.reachable
  have free : s.write = none := by
    refine Option.eq_none_iff_forall_ne_some.mpr fun u owner => ?_
    have owns := (locked.owner_iff u).mp owner
    simp [unowned u, guards] at owns
  have involved : t ∈ threads := settling.involved fun idle => by simp [idle, writeRank] at busy
  have unowned := unowned t
  cases here : s.pc t with
  | acquire call =>
      exact drainsOn_of_step (.step t) ⟨_, by simp only [step, advance, here, free]; rfl⟩
        trivial involved (by simp [here, waits]) (by simp [here])
  | scanned call allZero => simp [here, Pc.ownsWrite] at unowned
  | _ => simp_all [writeRank, Pc.ownsWrite]

/-- As long as a write call or a write guard is left, something can be done for it. -/
theorem drainsOn (left : ¬ s.WritersDone) : s.DrainsOn kind threads := by
  by_cases pinned : ∃ t, 0 < pinRank (s.pc t)
  · obtain ⟨t, pinned⟩ := pinned
    exact settling.drainsOn_of_pinned pinned
  · have unpinned : ∀ t, pinRank (s.pc t) = 0 := by simpa using pinned
    cases readGuards : s.readGuards with
    | cons guard rest =>
        exact settling.drainsOn_of_readGuard (readGuards ▸ List.mem_cons_self)
    | nil =>
        cases writeGuards : s.writeGuards with
        | cons guard rest =>
            exact settling.drainsOn_of_writeGuard (writeGuards ▸ List.mem_cons_self)
        | nil =>
            obtain ⟨t, busy⟩ : ∃ t, writeRank (s.pc t) ≠ 0 := by
              simpa [WritersDone, writeGuards] using left
            by_cases owned : ∃ u, (s.pc u).ownsWrite = true
            · obtain ⟨u, owns⟩ := owned
              exact settling.drainsOn_of_owner unpinned readGuards owns
            · exact settling.drainsOn_of_acquire writeGuards (by simpa using owned) busy

end Settling

end Drain

section Return

/-- How far a read call is from its return when the flag is down; what it
returns has still to be dropped. -/
def returnRank (pc : Pc) : Nat :=
  if pc.entering then entryRank pc + 2 else if pc.isReading then 2 else 0

/-- What is left to do when all writers have returned. -/
def leaveRank (threads : Finset Thread) (s : State Thread w) : Nat :=
  total threads returnRank s + s.readGuards.length

/-- Nothing but a write call raises the flag or takes a write guard. -/
theorem WritersDone.preserved (done : s.WritersDone) (move : Moves kind s action next)
    (finishes : action.finishes) : next.WritersDone := by
  have mine := done.1 action.thread
  have guards := done.2
  refine ⟨fun u => ?_, ?_⟩
  · by_cases actor : u = action.thread
    · rw [actor]
      cases move <;> simp_all [writeRank]
    · rw [move.pc_of_ne actor]
      exact done.1 u
  · cases move <;> simp_all [writeRank]

/-- Without writers every finishing step brings the last reader's return closer. -/
theorem Moves.leaveRank_lt (move : Moves kind s action next) (finishes : action.finishes)
    (involved : action.thread ∈ threads) (done : s.WritersDone) (down : s.writing = false) :
    next.leaveRank threads < s.leaveRank threads := by
  have reads := total_add returnRank involved fun u => move.pc_of_ne (u := u)
  have mine := done.1 action.thread
  have guards := done.2
  unfold leaveRank
  cases move with
  | @dropRead t guard idle live =>
      have length := List.length_erase_of_mem live
      have fewer := Nat.sub_one_lt_of_lt (List.length_pos_of_mem live)
      simp_all
  | _ =>
      simp_all [writeRank, returnRank, entryRank, Pc.entering, Pc.isReading] <;> omega

/-- Some finishing step brings the state closer to the return of the last reader. -/
def LeavesOn (kind : Kind) (threads : Finset Thread) (s : State Thread w) : Prop :=
  ∃ action next, s.step kind action = some next ∧ action.finishes ∧
    action.thread ∈ threads ∧ next.leaveRank threads < s.leaveRank threads

namespace Settling

variable (settling : s.Settling kind threads)
include settling

theorem down_of_writersDone (done : s.WritersDone) : s.writing = false := by
  have locked := locked_of_reachable settling.reachable
  refine locked.flag_free (Option.eq_none_iff_forall_ne_some.mpr fun t owner => ?_)
  rcases (locked.owner_iff t).mp owner with owns | ⟨guard, live, -⟩
  · have call := done.1 t
    cases here : s.pc t with
    | scanned call allZero => cases allZero <;> simp_all [writeRank]
    | _ => simp_all [writeRank, Pc.ownsWrite]
  · simp [done.2] at live

theorem leavesOn_of_step (done : s.WritersDone) (action : Action Thread)
    (enabled : ∃ next, s.step kind action = some next) (finishes : action.finishes)
    (involved : action.thread ∈ threads) : s.LeavesOn kind threads := by
  obtain ⟨next, stepped⟩ := enabled
  exact ⟨action, next, stepped, finishes, involved, (moves_of_step stepped).leaveRank_lt finishes
    involved done (settling.down_of_writersDone done)⟩

/-- A read that has not passed its load can go on, or the thread it waits for can. -/
theorem leavesOn_of_entering (done : s.WritersDone) {t : Thread}
    (entering : (s.pc t).entering = true) : s.LeavesOn kind threads := by
  have registered := registered_of_reachable settling.reachable
  have locked := locked_of_reachable settling.reachable
  have down := settling.down_of_writersDone done
  have involved : ∀ u, (s.pc u).entering = true → u ∈ threads := fun u entering =>
    settling.involved fun idle => by simp [idle, Pc.entering] at entering
  by_cases free : ∀ call, s.pc t = .register call → s.registryLock = none
  · exact settling.leavesOn_of_step done (.step t) (advance_of_entering entering free) trivial
      (involved t entering)
  · push Not at free
    obtain ⟨-, -, held⟩ := free
    obtain ⟨u, owner⟩ := Option.ne_none_iff_exists'.mp held
    have registers : (s.pc u).entering = true ∧
        ∀ call, s.pc u = .register call → s.registryLock = none := by
      rcases holder_registers registered locked down owner with
        ⟨call, here⟩ | ⟨call, count, here⟩ <;> simp [here, Pc.entering]
    exact settling.leavesOn_of_step done (.step u)
      (advance_of_entering registers.1 registers.2) trivial (involved u registers.1)

/-- Without writers, as long as a read call or a read guard is left, something
can be done for it. -/
theorem leavesOn (done : s.WritersDone) (left : ¬ s.Finished) : s.LeavesOn kind threads := by
  by_cases busy : ∃ t, s.pc t ≠ .idle
  · obtain ⟨t, busy⟩ := busy
    have call := done.1 t
    cases here : s.pc t with
    | idle => exact absurd here busy
    | reading call count =>
        obtain ⟨returned, enabled⟩ := exists_leaveRead here
        exact settling.leavesOn_of_step done (.leaveRead t returned) enabled trivial
          (settling.involved busy)
    | scanned call allZero => cases allZero <;> simp_all [writeRank]
    | slot _ | register _ | push _ | release _ _ | add _ _ | load _ _ | backOff _ _ =>
        exact settling.leavesOn_of_entering done (by rw [here]; rfl)
    | _ => simp_all [writeRank]
  · have idle : ∀ t, s.pc t = .idle := by simpa using busy
    cases guards : s.readGuards with
    | nil => exact absurd ⟨idle, guards, done.2⟩ left
    | cons guard rest =>
        have live : guard ∈ s.readGuards := guards ▸ List.mem_cons_self
        have involved : guard.holder ∈ threads := by
          by_contra missing
          exact (settling.covered _ missing).2 (.inl ⟨guard, live, rfl⟩)
        exact settling.leavesOn_of_step done (.dropRead guard.holder guard.id)
          (exists_dropRead live (idle _)) trivial involved

/-- The writers can be let through. -/
theorem continues_to_writersDone :
    ∃ next, (finishing kind w threads).Continues s next ∧ next.Settling kind threads ∧
      next.WritersDone := by
  refine System.continues_of_rank drainLess_wf (drainRank threads)
    (fun s settling left => ?_) s settling
  obtain ⟨action, next, stepped, finishes, involved, less⟩ := settling.drainsOn left
  exact ⟨action, next, ⟨⟨finishes, involved⟩, stepped⟩,
    settling.preserved stepped finishes involved, less⟩

/-- Then the readers can leave. -/
theorem continues_to_finished (done : s.WritersDone) :
    ∃ next, (finishing kind w threads).Continues s next ∧
      (next.Settling kind threads ∧ next.WritersDone) ∧ next.Finished := by
  refine System.continues_of_rank Nat.lt_wfRel.wf (leaveRank threads)
    (fun s ⟨settling, done⟩ left => ?_) s ⟨settling, done⟩
  obtain ⟨action, next, stepped, finishes, involved, less⟩ := settling.leavesOn done left
  exact ⟨action, next, ⟨⟨finishes, involved⟩, stepped⟩,
    ⟨settling.preserved stepped finishes involved,
      done.preserved (moves_of_step stepped) finishes⟩, less⟩

/-- What the given threads have started can be finished. -/
theorem continues_to_quiescent :
    ∃ next, (finishing kind w threads).Continues s next ∧ next.Quiescent := by
  obtain ⟨middle, before, settled, done⟩ := settling.continues_to_writersDone
  obtain ⟨last, after, ⟨rested, -⟩, finished⟩ := settled.continues_to_finished done
  exact ⟨last, before.trans after, finished.quiescent (registered_of_reachable rested.reachable)
    (accounted_of_reachable rested.reachable) (locked_of_reachable rested.reachable)⟩

end Settling

end Return

/-- The drops of write locks that are under way can end, by steps of their
threads alone. -/
theorem continues_to_dropped {threads : Finset Thread}
    (dropping : ∀ t, dropRank (s.pc t) ≠ 0 → t ∈ threads) :
    ∃ next, (finishing kind w threads).Continues s next ∧
      ∀ t, dropRank (next.pc t) = 0 := by
  have closer : ∀ s : State Thread w, (∀ t, dropRank (s.pc t) ≠ 0 → t ∈ threads) →
      ¬ (∀ t, dropRank (s.pc t) = 0) →
      ∃ action next, (finishing kind w threads).Step s action next ∧
        (∀ t, dropRank (next.pc t) ≠ 0 → t ∈ threads) ∧
        total threads dropRank next < total threads dropRank s := by
    intro s dropping left
    push Not at left
    obtain ⟨t, busy⟩ := left
    obtain ⟨next, stepped⟩ : ∃ next, s.step kind (.step t) = some next := by
      cases here : s.pc t with
      | lower id => exact ⟨_, by simp only [step, advance, here]; rfl⟩
      | unlock id => exact ⟨_, by simp only [step, advance, here]; rfl⟩
      | _ => simp [here, dropRank] at busy
    have move := moves_of_step stepped
    have sum := total_add dropRank (dropping t busy) fun u other => move.pc_of_ne other
    have less : dropRank (next.pc t) < dropRank (s.pc t) := by
      cases move <;> simp_all [dropRank]
    refine ⟨.step t, next, ⟨⟨trivial, dropping t busy⟩, stepped⟩, fun u busy' => ?_, by omega⟩
    by_cases actor : u = t
    · exact actor ▸ dropping t busy
    · exact dropping u (by rwa [move.pc_of_ne actor] at busy')
  obtain ⟨next, continues, -, dropped⟩ :=
    System.continues_of_rank Nat.lt_wfRel.wf (total threads dropRank) closer s dropping
  exact ⟨next, continues, dropped⟩

end State

end DarkStd.Sync
