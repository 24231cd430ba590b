import DarkStd.Sync.Accounting

/-!
# Readers and writers exclude each other

The writer's scan is not a snapshot: it loads one counter after another while
readers increment and back off, and readers may register between two scans.
What a scan that has reached position `next` does know is `Quiet` below `next`:
no guard and no method body pins those counters. It stays true because the flag
is up, so no `begin_read` can succeed any more; a counter may be incremented
again, but only by a reader that will see the flag and back off.
-/

namespace DarkStd.Sync

open DarkStd.Semantics

namespace Pc

/-- Between `self.write.lock()` and the drop of what it returned. -/
@[grind] def ownsWrite : Pc → Bool
  | .raise _ | .scanLock _ | .scan _ _ | .scanned _ _ | .writing _ | .lower _ | .unlock _ => true
  | _ => false

/-- Between `store(true)` and `store(false)`. -/
@[grind] def raised : Pc → Bool
  | .scanLock _ | .scan _ _ | .scanned _ _ | .writing _ | .lower _ => true
  | _ => false

/-- The scan has found every counter zero and the flag is still up. -/
@[grind] def drained : Pc → Bool
  | .scanned _ true | .writing _ | .lower _ => true
  | _ => false

/-- `begin_write` has returned and its `WriteLock` has not been dropped whole. -/
@[grind] def holdsWriteLock : Pc → Bool
  | .writing _ | .lower _ | .unlock _ => true
  | _ => false

/-- The body of a write method runs. -/
@[grind] def isWriting : Pc → Bool
  | .writing _ => true
  | _ => false

/-- `begin_write` has returned and the drop of its `WriteLock` has not begun to
take effect. -/
@[grind] def inWriteSection : Pc → Bool
  | .writing _ | .lower _ => true
  | _ => false

end Pc

namespace State

variable {Thread : Type} {w : Nat}

/-- The thread has returned from `begin_write` and its `WriteLock` still
exists: in a running call, in a guard, or half dropped. -/
def HoldsWriteLock (s : State Thread w) (t : Thread) : Prop :=
  (s.pc t).holdsWriteLock = true ∨ ∃ guard ∈ s.writeGuards, guard.holder = t

/-- The thread is in the critical section of a writer, which ends with the
`store(false)` of the drop of its `WriteLock`. -/
def InWriteSection (s : State Thread w) (t : Thread) : Prop :=
  (s.pc t).inWriteSection = true ∨ ∃ guard ∈ s.writeGuards, guard.holder = t

/-- Some read section is open: a live `ReadGuard`, `ReadMapGuard` or read
iterator, or a read call between the return of `begin_read` and its
`fetch_sub`. -/
def ReadSectionOpen (s : State Thread w) : Prop :=
  s.readGuards ≠ [] ∨ ∃ t, (s.pc t).isReading = true

/-- Nothing pins this counter for longer than a back-off. -/
def Quiet (s : State Thread w) (count : Nat) : Prop :=
  guardsOn s.readGuards count = 0 ∧ ∀ t call, s.pc t ≠ .reading call count

/-- The write mutex and the flag are where the code holds them. -/
structure Locked (s : State Thread w) : Prop where
  owner_iff : ∀ t, s.write = some t ↔
    (s.pc t).ownsWrite = true ∨ ∃ guard ∈ s.writeGuards, guard.holder = t
  guards_single : s.writeGuards.length ≤ 1
  guards_exclude : ∀ t, (s.pc t).ownsWrite = true → s.writeGuards = []
  flag_call : ∀ t, (s.pc t).ownsWrite = true → s.writing = (s.pc t).raised
  flag_guard : s.writeGuards ≠ [] → s.writing = true
  flag_free : s.write = none → s.writing = false

/-- What a scan has established so far holds. -/
structure Drained (s : State Thread w) : Prop where
  scanned_quiet : ∀ t call next, s.pc t = .scan call next → ∀ count < next, s.Quiet count
  drained_closed : ∀ t, (s.pc t).drained = true → ¬ s.ReadSectionOpen
  guarded_closed : s.writeGuards ≠ [] → ¬ s.ReadSectionOpen

/-- In a new container the mutex is free and the flag is down. -/
theorem Locked.new : (State.new Thread w).Locked where
  owner_iff := by simp [State.new, Pc.ownsWrite]
  guards_single := by simp [State.new]
  guards_exclude := by simp [State.new]
  flag_call := by simp [State.new, Pc.ownsWrite]
  flag_guard := by simp [State.new]
  flag_free := by simp [State.new]

/-- In a new container nobody scans. -/
theorem Drained.new : (State.new Thread w).Drained where
  scanned_quiet := by simp [State.new]
  drained_closed := by simp [State.new, Pc.drained]
  guarded_closed := by simp [State.new]

/-- The invariants of the protocol, together. -/
structure Sound (s : State Thread w) : Prop where
  registered : s.Registered
  accounted : s.Accounted
  locked : s.Locked
  drained : s.Drained

/-- A new container meets every invariant. -/
theorem Sound.new : (State.new Thread w).Sound :=
  ⟨.new, .new, .new, .new⟩

/-- There is only one owner of the write mutex. -/
theorem Locked.owner_unique {s : State Thread w} (locked : s.Locked) {t u : Thread}
    (left : (s.pc t).ownsWrite = true ∨ ∃ guard ∈ s.writeGuards, guard.holder = t)
    (right : (s.pc u).ownsWrite = true ∨ ∃ guard ∈ s.writeGuards, guard.holder = u) :
    t = u :=
  Option.some.inj (((locked.owner_iff t).mpr left).symm.trans ((locked.owner_iff u).mpr right))

/-- No read section is open exactly when every counter is quiet. -/
theorem not_readSectionOpen_iff {s : State Thread w} :
    ¬ s.ReadSectionOpen ↔ ∀ count, s.Quiet count := by
  constructor
  · intro closed count
    refine ⟨guardsOn_eq_zero.mpr fun guard live => ?_, fun t call here => ?_⟩
    · exact absurd (.inl (List.ne_nil_of_mem live)) closed
    · exact closed (.inr ⟨t, by rw [here]; rfl⟩)
  · rintro quiet (live | ⟨t, reading⟩)
    · obtain ⟨guard, live⟩ := List.exists_mem_of_ne_nil _ live
      exact guardsOn_eq_zero.mp (quiet guard.count).1 guard live rfl
    · cases here : s.pc t with
      | reading call count => exact (quiet count).2 t call here
      | _ => simp [here, Pc.isReading] at reading

/-- A counter that reads zero is quiet: the sum it is equal to did not wrap. -/
theorem quiet_of_zero {s : State Thread w} (registered : s.Registered)
    (accounted : s.Accounted) {count : Nat} (zero : s.registry[count]? = some 0) :
    s.Quiet count := by
  obtain ⟨below, -⟩ := List.getElem?_eq_some_iff.mp zero
  obtain ⟨t, slot⟩ := registered.slot_surjective count below
  obtain ⟨counter, loaded, number⟩ := accounted.toNat_counter slot
  obtain rfl := Option.some.inj (zero.symm.trans loaded)
  have none : s.sections t count = 0 := by rw [← number, BitVec.ofNat_eq_ofNat, BitVec.toNat_zero]
  unfold sections at none
  refine ⟨by omega, fun u call here => ?_⟩
  have same : u = t := registered.slot_injective u t count
    (registered.pointer_slot u count (by rw [here]; rfl)) slot
  subst same
  simp [here, Pc.pins] at none

/-- Past the end of the registry there is nothing to wait for. -/
theorem quiet_of_length_le {s : State Thread w} (registered : s.Registered)
    (accounted : s.Accounted) {count : Nat} (past : s.registry.length ≤ count) :
    s.Quiet count := by
  refine ⟨guardsOn_eq_zero.mpr fun guard live same => ?_, fun t call here => ?_⟩
  · have below := accounted.guard_lt guard live
    omega
  · have slot := registered.pointer_slot t count (by rw [here]; rfl)
    have below := registered.slot_lt t count slot
    omega

/-- A live write guard is the only one. -/
theorem Locked.guards_eq_singleton {s : State Thread w} (locked : s.Locked)
    {guard : WriteGuard Thread} (live : guard ∈ s.writeGuards) :
    s.writeGuards = [guard] := by
  have single := locked.guards_single
  match guards : s.writeGuards with
  | [] => simp [guards] at live
  | [other] => simpa [guards, eq_comm] using live
  | _ :: _ :: _ => simp [guards] at single

/-- A free write mutex leaves no write guard behind. -/
theorem Locked.guards_eq_nil {s : State Thread w} (locked : s.Locked)
    (free : s.write = none) : s.writeGuards = [] := by
  refine List.eq_nil_iff_forall_not_mem.mpr fun guard live => ?_
  have owned := (locked.owner_iff guard.holder).mpr (.inr ⟨guard, live, rfl⟩)
  simp [free] at owned

/-- Between `store(true)` and `store(false)` the flag is up. -/
theorem Locked.up_of_raised {s : State Thread w} (locked : s.Locked) {t : Thread}
    (raised : (s.pc t).raised = true) : s.writing = true := by
  have owns : (s.pc t).ownsWrite = true := by
    cases here : s.pc t <;> simp_all [Pc.raised, Pc.ownsWrite]
  rw [locked.flag_call t owns, raised]

/-- There is at most one `WriteLock`. -/
theorem Locked.holder_unique {s : State Thread w} (locked : s.Locked) {t u : Thread}
    (left : s.HoldsWriteLock t) (right : s.HoldsWriteLock u) : t = u := by
  have owns : ∀ v, s.HoldsWriteLock v →
      (s.pc v).ownsWrite = true ∨ ∃ guard ∈ s.writeGuards, guard.holder = v := by
    rintro v (call | guarded)
    · left
      cases here : s.pc v <;> simp_all [Pc.holdsWriteLock, Pc.ownsWrite]
    · exact .inr guarded
  exact locked.owner_unique (owns t left) (owns u right)

/-- A writer in its critical section is alone with the content. -/
theorem Drained.closed {s : State Thread w} (drained : s.Drained) {t : Thread}
    (inside : s.InWriteSection t) : ¬ s.ReadSectionOpen := by
  rcases inside with call | ⟨guard, live, -⟩
  · refine drained.drained_closed t ?_
    cases here : s.pc t <;> simp_all [Pc.inWriteSection, Pc.drained]
  · exact drained.guarded_closed (List.ne_nil_of_mem live)

variable [DecidableEq Thread]
variable {kind : Kind} {s next : State Thread w} {action : Action Thread}

namespace Locked

variable (locked : s.Locked)
include locked

/-- The mutex goes from a call to its guard and back to the drop of the guard. -/
theorem owner_iff_preserved (move : Moves kind s action next) (t : Thread) :
    next.write = some t ↔
      (next.pc t).ownsWrite = true ∨ ∃ guard ∈ next.writeGuards, guard.holder = t := by
  have old := locked.owner_iff
  have exclude := locked.guards_exclude
  cases move with
  | @returnWrite u call guard here =>
      have none := exclude u (by rw [here]; rfl)
      have owner := old t
      simp only [goto_write, goto_pc, goto_writeGuards, none, List.mem_singleton,
        exists_eq_left] at owner ⊢
      grind -ring -linarith
  | @dropWrite u guard idle live held =>
      have only := locked.guards_eq_singleton live
      have owner := old t
      simp only [goto_write, goto_pc, goto_writeGuards, only, List.erase_cons_head,
        List.mem_singleton, exists_eq_left] at owner ⊢
      grind -ring -linarith
  | _ => grind -ring -linarith

/-- A write guard is returned only where there is none. -/
theorem guards_single_preserved (move : Moves kind s action next) :
    next.writeGuards.length ≤ 1 := by
  have old := locked.guards_single
  cases move with
  | @returnWrite u call guard here =>
      have none := locked.guards_exclude u (by rw [here]; rfl)
      simp [none]
  | @dropWrite u guard idle live =>
      exact Nat.le_trans (List.length_erase_le ..) old
  | _ => exact old

/-- A call gets the mutex only where no guard has it. -/
theorem guards_exclude_preserved (move : Moves kind s action next) (t : Thread)
    (owns : (next.pc t).ownsWrite = true) : next.writeGuards = [] := by
  have old := locked.guards_exclude t
  have owner := locked.owner_iff
  cases move with
  | @returnWrite u call guard here => grind -ring -linarith
  | @dropWrite u guard idle live =>
      have only := locked.guards_eq_singleton live
      simp [only]
  | @acquire u call here free => exact locked.guards_eq_nil free
  | _ => grind -ring -linarith

/-- The flag follows the one call that owns the mutex. -/
theorem flag_call_preserved (move : Moves kind s action next) (t : Thread)
    (owns : (next.pc t).ownsWrite = true) : next.writing = (next.pc t).raised := by
  have old := locked.flag_call t
  have owner := locked.owner_iff
  cases move with
  | @acquire u call here free =>
      have down := locked.flag_free free
      grind -ring -linarith
  | @dropWrite u guard idle live =>
      have up := locked.flag_guard (List.ne_nil_of_mem live)
      grind -ring -linarith
  | _ => grind -ring -linarith

/-- A write guard is returned with the flag up, and only its drop lowers it. -/
theorem flag_guard_preserved (move : Moves kind s action next)
    (guarded : next.writeGuards ≠ []) : next.writing = true := by
  have old := locked.flag_guard
  have exclude := locked.guards_exclude
  cases move with
  | @returnWrite u call guard here =>
      have up := locked.flag_call u (by rw [here]; rfl)
      rw [here] at up
      exact up
  | @lower u id here => exact absurd (exclude u (by rw [here]; rfl)) guarded
  | @dropWrite u guard idle live => exact old (List.ne_nil_of_mem live)
  | raise here => rfl
  | _ => exact old guarded

/-- The mutex is unlocked after the flag is lowered. -/
theorem flag_free_preserved (move : Moves kind s action next) (free : next.write = none) :
    next.writing = false := by
  have old := locked.flag_free
  have owner := locked.owner_iff
  cases move with
  | @unlock u id here =>
      have down := locked.flag_call u (by rw [here]; rfl)
      rw [here] at down
      exact down
  | _ => grind -ring -linarith

/-- Every step keeps the mutex and the flag where the code holds them. -/
theorem preserved (move : Moves kind s action next) : next.Locked where
  owner_iff := locked.owner_iff_preserved move
  guards_single := locked.guards_single_preserved move
  guards_exclude := locked.guards_exclude_preserved move
  flag_call := locked.flag_call_preserved move
  flag_guard := locked.flag_guard_preserved move
  flag_free := locked.flag_free_preserved move

end Locked

/-- While the flag is up a quiet counter stays quiet: no `begin_read` succeeds. -/
theorem Moves.quiet (move : Moves kind s action next) (up : s.writing = true) {count : Nat}
    (quiet : s.Quiet count) : next.Quiet count := by
  obtain ⟨guards, calls⟩ := quiet
  cases move with
  | @loadFalse u call position here down => simp [up] at down
  | @returnRead u call position guard here =>
      have other : position ≠ count := fun same => calls u call (same ▸ here)
      refine ⟨?_, fun t call' here' => ?_⟩
      · rw [goto_readGuards, guardsOn_cons, guards]
        simp [other]
      · grind -ring -linarith
  | @dropRead u guard idle live =>
      refine ⟨?_, calls⟩
      rw [guardsOn_erase live] at guards
      exact Nat.eq_zero_of_add_eq_zero_right guards
  | @send receiver guard idle live =>
      exact ⟨(guardsOn_send live receiver count).trans guards, calls⟩
  | _ =>
      refine ⟨guards, fun t call' here' => ?_⟩
      grind -ring -linarith

namespace Drained

variable (drained : s.Drained)
include drained

/-- The counters a scan has passed stay quiet, because the flag is up all the while. -/
theorem scanned_quiet_preserved (registered : s.Registered) (accounted : s.Accounted)
    (locked : s.Locked) (move : Moves kind s action next) (t : Thread) (call : WriteCall)
    (position : Nat) (here : next.pc t = .scan call position) (count : Nat)
    (below : count < position) : next.Quiet count := by
  have keep (up : s.writing = true) : s.Quiet count → next.Quiet count := move.quiet up
  by_cases scanning : s.pc t = .scan call position
  · exact keep (locked.up_of_raised (by rw [scanning]; rfl))
      (drained.scanned_quiet t call position scanning count below)
  · cases move with
    | @scanZero u call' loaded here' zero =>
        -- The scan has just moved past the counter it loaded.
        refine keep (locked.up_of_raised (by rw [here']; rfl)) ?_
        have earlier := drained.scanned_quiet u call' loaded here' count
        have last := quiet_of_zero registered accounted zero
        grind -ring -linarith
    | _ => grind -ring -linarith

/-- A scan that has passed all counters has closed every read section, and none opens
while the flag is up. -/
theorem drained_closed_preserved (registered : s.Registered) (accounted : s.Accounted)
    (locked : s.Locked) (move : Moves kind s action next) (t : Thread)
    (here : (next.pc t).drained = true) : ¬ next.ReadSectionOpen := by
  rw [not_readSectionOpen_iff]
  intro count
  have keep (up : s.writing = true) : s.Quiet count → next.Quiet count := move.quiet up
  by_cases before : (s.pc t).drained = true
  · have raised : (s.pc t).raised = true := by
      cases before' : s.pc t <;> simp_all [Pc.drained, Pc.raised]
    exact keep (locked.up_of_raised raised)
      (not_readSectionOpen_iff.mp (drained.drained_closed t before) count)
  · cases move with
    | @scanEnd u call finish here' finished =>
        refine keep (locked.up_of_raised (by rw [here']; rfl)) ?_
        have past := List.getElem?_eq_none_iff.mp finished
        by_cases below : count < finish
        · exact drained.scanned_quiet u call finish here' count below
        · exact quiet_of_length_le registered accounted (by omega)
    | @dropWrite u guard idle live =>
        have guarded := List.ne_nil_of_mem live
        exact keep (locked.flag_guard guarded)
          (not_readSectionOpen_iff.mp (drained.guarded_closed guarded) count)
    | _ => grind -ring -linarith

/-- Nor does one open while a write guard lives. -/
theorem guarded_closed_preserved (locked : s.Locked) (move : Moves kind s action next)
    (guarded : next.writeGuards ≠ []) : ¬ next.ReadSectionOpen := by
  rw [not_readSectionOpen_iff]
  intro count
  have keep (up : s.writing = true) : s.Quiet count → next.Quiet count := move.quiet up
  by_cases before : s.writeGuards = []
  · cases move with
    | @returnWrite u call guard here =>
        have closed := drained.drained_closed u (by rw [here]; rfl)
        exact keep (locked.up_of_raised (by rw [here]; rfl))
          (not_readSectionOpen_iff.mp closed count)
    | @dropWrite u guard idle live => simp [before] at live
    | _ => exact absurd before guarded
  · exact keep (locked.flag_guard before)
      (not_readSectionOpen_iff.mp (drained.guarded_closed before) count)

/-- Every step keeps what scans have established. -/
theorem preserved (registered : s.Registered) (accounted : s.Accounted) (locked : s.Locked)
    (move : Moves kind s action next) : next.Drained where
  scanned_quiet := drained.scanned_quiet_preserved registered accounted locked move
  drained_closed := drained.drained_closed_preserved registered accounted locked move
  guarded_closed := drained.guarded_closed_preserved locked move

end Drained

/-- Every step keeps the invariants of the protocol. -/
theorem Sound.preserved (sound : s.Sound) (move : Moves kind s action next) : next.Sound where
  registered := sound.registered.preserved move
  accounted := sound.accounted.preserved sound.registered move
  locked := sound.locked.preserved move
  drained := sound.drained.preserved sound.registered sound.accounted sound.locked move

/-- The write mutex and the flag are where the code holds them in every run. -/
theorem locked_of_reachable (reachable : (container kind Thread w).Reachable s) : s.Locked :=
  reachable.invariant Locked (fun _ start => start ▸ .new)
    fun _ _ _ _ locked move => locked.preserved (moves_of_step move)

/-- What scans have established holds in every run. -/
theorem drained_of_reachable (reachable : (container kind Thread w).Reachable s) : s.Drained :=
  reachable.invariant Drained (fun _ start => start ▸ .new)
    fun _ _ _ prior drained move =>
      drained.preserved (registered_of_reachable prior) (accounted_of_reachable prior)
        (locked_of_reachable prior) (moves_of_step move)

/-- Every run keeps the invariants of the protocol. -/
theorem sound_of_reachable (reachable : (container kind Thread w).Reachable s) : s.Sound :=
  ⟨registered_of_reachable reachable, accounted_of_reachable reachable,
    locked_of_reachable reachable, drained_of_reachable reachable⟩

end State

/-- Reader and writer exclusion, for each of the four container types, any
threads, any calls and any interleaving of their atomic steps: at most one
thread has returned from `begin_write` and not yet dropped its `WriteLock`, and
while one is in its critical section no read section is open. -/
theorem readers_writers_exclude (kind : Kind) {Thread : Type} [DecidableEq Thread] {w : Nat}
    {s : State Thread w} (reachable : (container kind Thread w).Reachable s) :
    (∀ t u, s.HoldsWriteLock t → s.HoldsWriteLock u → t = u) ∧
      ∀ t, s.InWriteSection t → ¬ s.ReadSectionOpen :=
  ⟨fun _ _ => (State.locked_of_reachable reachable).holder_unique,
    fun _ => (State.drained_of_reachable reachable).closed⟩

/-- A `push`, stopped in its body. A reader that has used and dropped a guard before
has backed off once, and has counted itself again. -/
theorem push_excludes_readers : ∃ s : State (Fin 2) 64,
    (container .vec (Fin 2) 64).Reachable s ∧ s.InWriteSection 0 ∧
      s.pc 1 = .load ⟨2, .len⟩ 0 ∧ s.registry = [1] ∧ ¬ s.ReadSectionOpen := by
  obtain ⟨s, reachable, met⟩ := System.exists_reachable_of_execute
    (fun s : State (Fin 2) 64 => decide (s.pc 0 = .writing ⟨1, .push⟩ ∧
      s.pc 1 = .load ⟨2, .len⟩ 0 ∧ s.registry = [1]))
    (show (System.execute (State.step .vec) (.new (Fin 2) 64)
      ([.read 1 .get] ++ List.replicate 6 (.step 1) ++ [.leaveRead 1 (some .value), .dropRead 1 0,
        .write 0 .push, .step 0, .step 0, .read 1 .len, .step 1, .step 1, .step 0, .step 0,
        .step 0, .step 1, .step 1, .step 0, .step 0, .step 0, .step 0, .step 1])).any _ = true by
      decide +kernel)
  obtain ⟨writes, reads, registry⟩ := of_decide_eq_true met
  have inside : s.InWriteSection 0 := .inl (by rw [writes]; rfl)
  exact ⟨s, reachable, inside, reads, registry, (readers_writers_exclude .vec reachable).2 0 inside⟩

end DarkStd.Sync
