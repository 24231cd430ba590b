import DarkStd.Semantics.Refinement
import DarkStd.Sync.Comparisons
import DarkStd.Sync.Starvation

/-!
# The container is a reader-writer lock

What the protocol is for: sections of readers and writers are opened and closed,
a reader's only while no writer is in, a writer's only while nobody is. `lock` is
that and nothing else. The container refines it, and every behaviour of it is one
of the container, for as many events as fit in a reader counter.
-/

namespace DarkStd.Sync

open DarkStd.Semantics

/-- How many read sections each thread has open, and who is writing. -/
@[ext]
structure Lock (Thread : Type) where
  readers : Thread → Nat
  writer : Option Thread

/-- What can be seen of a reader-writer lock. -/
inductive LockEvent (Thread : Type) where
  | openRead (thread : Thread)
  | closeRead (thread : Thread)
  /-- A read section is handed over with its iterator. -/
  | sendRead (thread receiver : Thread)
  | openWrite (thread : Thread)
  | closeWrite (thread : Thread)

/-- The event is about a read section. -/
def LockEvent.reads {Thread : Type} : LockEvent Thread → Bool
  | .openRead _ | .closeRead _ | .sendRead _ _ => true
  | .openWrite _ | .closeWrite _ => false

/-- Nobody is in. -/
def Lock.new (Thread : Type) : Lock Thread := ⟨fun _ => 0, none⟩

/-- The steps of a reader-writer lock. -/
inductive Lock.Moves {Thread : Type} [DecidableEq Thread] (sendable : Bool) (l : Lock Thread) :
    LockEvent Thread → Lock Thread → Prop where
  | openRead {t} (free : l.writer = none) :
      Moves sendable l (.openRead t)
        { l with readers := Function.update l.readers t (l.readers t + 1) }
  | closeRead {t rest} (inside : l.readers t = rest + 1) :
      Moves sendable l (.closeRead t) { l with readers := Function.update l.readers t rest }
  | sendRead {t u rest readers} (allowed : sendable = true) (inside : l.readers t = rest + 1)
      (left : Function.update l.readers t rest = readers) :
      Moves sendable l (.sendRead t u)
        { l with readers := Function.update readers u (readers u + 1) }
  | openWrite {t} (free : l.writer = none) (alone : ∀ u, l.readers u = 0) :
      Moves sendable l (.openWrite t) { l with writer := some t }
  | closeWrite {t} (inside : l.writer = some t) :
      Moves sendable l (.closeWrite t) { l with writer := none }

/-- The lock does what the event says. -/
theorem Lock.Moves.unique {Thread : Type} [DecidableEq Thread] {sendable : Bool}
    {l next other : Lock Thread} {event : LockEvent Thread}
    (move : Lock.Moves sendable l event next) (again : Lock.Moves sendable l event other) :
    next = other := by
  cases move with
  | openRead | openWrite | closeWrite => cases again; rfl
  | closeRead inside =>
      cases again with
      | closeRead inside' => rw [Nat.succ.inj (inside.symm.trans inside')]
  | sendRead allowed inside left =>
      cases again with
      | sendRead allowed' inside' left' =>
          rw [← left, ← left', Nat.succ.inj (inside.symm.trans inside')]

/-- A reader-writer lock, used by any number of threads. -/
def lock (sendable : Bool) (Thread : Type) [DecidableEq Thread] :
    System (Lock Thread) (LockEvent Thread) where
  Initial l := l = .new Thread
  Step := Lock.Moves sendable

namespace State

variable {Thread : Type} [DecidableEq Thread] {w : Nat}

/-- The read sections that a thread has open. -/
def held (s : State Thread w) (t : Thread) : Nat :=
  s.readGuards.countP (fun guard => guard.holder = t) + (s.pc t).isReading.toNat

/-- The container, as a reader-writer lock. -/
def lockView (s : State Thread w) : Lock Thread where
  readers := s.held
  writer := s.write.filter fun t =>
    (s.pc t).inWriteSection || s.writeGuards.any fun guard => guard.holder = t

/-- The event that an action is. -/
def observe (s : State Thread w) : Action Thread → Option (LockEvent Thread)
  | .step t =>
      match s.pc t with
      | .load _ _ => if s.writing then none else some (.openRead t)
      | .scanned _ true => some (.openWrite t)
      | .lower _ => some (.closeWrite t)
      | _ => none
  | .leaveRead t none | .dropRead t _ => some (.closeRead t)
  | .send id receiver =>
      (s.readGuards.find? fun guard => guard.id = id ∧ guard.kind = .iter).map
        fun guard => .sendRead guard.holder receiver
  | .leaveRead _ (some _) | .read .. | .write .. | .leaveWrite .. | .dropWrite .. => none

section View

variable {s next : State Thread w} {t : Thread}

theorem lockView_writer (locked : s.Locked) :
    s.lockView.writer = some t ↔ s.InWriteSection t := by
  have inside : ((s.pc t).inWriteSection ||
      s.writeGuards.any fun guard => guard.holder = t) = true ↔ s.InWriteSection t := by
    simp [InWriteSection]
  refine Option.filter_eq_some_iff.trans ?_
  rw [inside, and_iff_right_iff_imp]
  intro writes
  refine (locked.owner_iff t).mpr (writes.imp_left fun writing => ?_)
  cases here : s.pc t <;> simp_all [Pc.inWriteSection, Pc.ownsWrite]

theorem lockView_free (locked : s.Locked) :
    s.lockView.writer = none ↔ ∀ t, ¬ s.InWriteSection t := by
  rw [Option.eq_none_iff_forall_ne_some]
  exact forall_congr' fun t => not_congr (lockView_writer locked)

/-- Two states look alike if the same sections are open in them. -/
theorem lockView_congr (locked : s.Locked) (after : next.Locked)
    (reads : ∀ t, next.held t = s.held t)
    (writes : ∀ t, next.InWriteSection t ↔ s.InWriteSection t) : next.lockView = s.lockView := by
  refine Lock.ext (funext reads) (Option.ext fun t => ?_)
  rw [lockView_writer after, lockView_writer locked, writes t]

end View

section Forward

variable {kind : Kind} {s next : State Thread w} {action : Action Thread} {t : Thread}

/-- Where it is not seen, no read section is opened or closed. -/
theorem Moves.held_of_unseen (move : Moves kind s action next)
    (unseen : ∀ event, s.observe action = some event → event.reads = false) (u : Thread) :
    next.held u = s.held u := by
  unfold held
  cases move with
  | @send receiver guard idle live iterator =>
      have found : (s.readGuards.find?
          fun other => other.id = guard.id ∧ other.kind = .iter).isSome := by
        rw [List.find?_isSome]
        exact ⟨guard, live, by simp [iterator]⟩
      obtain ⟨other, found⟩ := Option.isSome_iff_exists.mp found
      cases unseen (.sendRead other.holder receiver) (by rw [observe, found]; rfl)
  | @dropRead v | @leaveRead v => cases unseen (.closeRead v) rfl
  | @returnRead v call count guard here =>
      by_cases mine : v = u
      · subst mine
        simp [here, Pc.isReading]
      · simp [goto_pc, Ne.symm mine, mine]
  | @loadFalse v call count here down => simp [observe, here, down, LockEvent.reads] at unseen
  | @read v | @write v | @slotFound v | @slotMissing v | @register v | @push v | @release v
  | @add v | @loadTrue v | @backOff v | @acquire v | @raise v | @scanLock v | @scanZero v
  | @scanNonzero v | @scanEnd v | @rescan v | @enter v | @lower v | @unlock v | @leaveWrite v
  | @returnWrite v | @dropWrite v =>
      by_cases mine : u = v
      · subst mine
        simp_all [Pc.isReading]
      · simp [goto_pc_of_ne _ _ _ _ mine]

/-- Where it is not seen, no write section is opened or closed. -/
theorem Moves.writes_of_unseen (move : Moves kind s action next) (locked : s.Locked)
    (unseen : ∀ event, s.observe action = some event → event.reads = true) (u : Thread) :
    next.InWriteSection u ↔ s.InWriteSection u := by
  unfold InWriteSection
  cases move with
  | @dropRead | @send => rfl
  | @enter v call here => simp [observe, here, LockEvent.reads] at unseen
  | @lower v id here => simp [observe, here, LockEvent.reads] at unseen
  | @dropWrite v guard idle live holder =>
      have single := locked.guards_eq_singleton live
      by_cases mine : u = v
      · subst mine
        simp [Pc.inWriteSection, single, holder]
      · have other : guard.holder ≠ u := fun same => mine (same.symm.trans holder)
        simp [goto_pc_of_ne _ _ _ _ mine, single, other]
  | @returnWrite v call guard here =>
      by_cases mine : v = u
      · subst mine
        simp [here, Pc.inWriteSection]
      · simp [goto_pc_of_ne _ _ _ _ (Ne.symm mine), mine]
  | @read v | @write v | @slotFound v | @slotMissing v | @register v | @push v | @release v
  | @add v | @loadTrue v | @loadFalse v | @backOff v | @acquire v | @raise v | @scanLock v
  | @scanZero v | @scanNonzero v | @scanEnd v | @rescan v | @unlock v | @leaveRead v
  | @returnRead v | @leaveWrite v =>
      by_cases mine : u = v
      · subst mine
        simp_all [Pc.inWriteSection]
      · simp [goto_pc_of_ne _ _ _ _ mine]

omit [DecidableEq Thread] in
/-- Nobody writes while the flag is down. -/
theorem Locked.outside_of_down (locked : s.Locked) (down : s.writing = false) (u : Thread) :
    ¬ s.InWriteSection u := by
  rintro (writes | ⟨guard, live, -⟩)
  · have raised : (s.pc u).raised = true := by
      cases here : s.pc u <;> simp_all [Pc.inWriteSection, Pc.raised]
    have up := locked.up_of_raised raised
    cases down.symm.trans up
  · cases down.symm.trans (locked.flag_guard (List.ne_nil_of_mem live))

/-- Nobody has a read section while none is open. -/
theorem held_eq_zero (closed : ¬ s.ReadSectionOpen) (u : Thread) : s.held u = 0 := by
  have guards : s.readGuards = [] := by
    by_contra live
    exact closed (.inl live)
  have outside : (s.pc u).isReading = false := by
    by_contra reading
    exact closed (.inr ⟨u, by simpa using reading⟩)
  rw [held, guards, outside]
  rfl

/-- A step that opens or closes a read section, as the lock sees it. -/
theorem lockView_readers (locked : s.Locked) (after : next.Locked) {readers : Thread → Nat}
    (reads : ∀ u, next.held u = readers u)
    (writes : ∀ u, next.InWriteSection u ↔ s.InWriteSection u) :
    next.lockView = { s.lockView with readers := readers } := by
  refine Lock.ext (funext reads) (Option.ext fun u => ?_)
  change next.lockView.writer = some u ↔ s.lockView.writer = some u
  rw [lockView_writer after, lockView_writer locked, writes u]

/-- The sections of a thread, after one of its guards is gone. -/
theorem countP_erase_holder {guards : List (ReadGuard Thread)} {guard : ReadGuard Thread}
    (live : guard ∈ guards) (u : Thread) :
    guards.countP (fun other => other.holder = u) =
      (guards.erase guard).countP (fun other => other.holder = u) +
        if u = guard.holder then 1 else 0 := by
  rw [(List.perm_cons_erase live).countP_eq, List.countP_cons]
  simp only [decide_eq_true_eq, eq_comm (a := guard.holder)]

/-- The sections of the threads, after an iterator has been sent. -/
theorem held_send {guard : ReadGuard Thread} (live : guard ∈ s.readGuards) (receiver u : Thread)
    {rest : Nat} (inside : s.held guard.holder = rest + 1) :
    held { s with readGuards := { guard with holder := receiver } :: s.readGuards.erase guard } u =
      Function.update (Function.update s.held guard.holder rest) receiver
        (Function.update s.held guard.holder rest receiver + 1) u := by
  have erased := countP_erase_holder live
  have gone (v : Thread) : (s.readGuards.erase guard).countP (fun other => other.holder = v) +
      (s.pc v).isReading.toNat = Function.update s.held guard.holder rest v := by
    have before := erased v
    by_cases holder : v = guard.holder
    · subst holder
      rw [if_pos rfl] at before
      rw [Function.update_self]
      rw [held] at inside
      omega
    · rw [if_neg holder] at before
      rw [Function.update_of_ne holder, held]
      omega
  rw [Function.update_apply, ← gone, ← gone, held, List.countP_cons]
  by_cases mine : u = receiver
  · subst mine
    simp only [decide_true, if_true]
    omega
  · simp [mine, Ne.symm mine]

/-- An iterator that is sent is the one that is seen. -/
theorem send_of_step {id : Nat} {receiver : Thread}
    (stepped : s.step kind (.send id receiver) = some next) :
    ∃ guard ∈ s.readGuards, s.observe (.send id receiver) = some (.sendRead guard.holder receiver) ∧
      kind.iterIsSend = true ∧ s.pc receiver = .idle ∧
      next = { s with
        readGuards := { guard with holder := receiver } :: s.readGuards.erase guard } := by
  simp only [step] at stepped
  split at stepped
  case h_1 guard found =>
    obtain ⟨⟨sendable, idle⟩, ⟨⟩⟩ := Option.ite_none_right_eq_some.mp stepped
    refine ⟨guard, List.mem_of_find?_eq_some found, ?_, sendable, idle, rfl⟩
    rw [observe, found, Option.map_some]
  case h_2 => cases stepped

/-- What is seen of an opening or a closing of a read section. -/
theorem stutters_of_reads (sound : s.Sound) (stepped : s.step kind action = some next)
    {event : LockEvent Thread} (seen : s.observe action = some event)
    (reads : event.reads = true) :
    (lock kind.iterIsSend Thread).Step s.lockView event next.lockView := by
  have move := moves_of_step stepped
  have after := (sound.preserved move).locked
  have writes : ∀ u, next.InWriteSection u ↔ s.InWriteSection u :=
    move.writes_of_unseen sound.locked fun other happens => by
      obtain rfl := Option.some.inj (seen.symm.trans happens)
      exact reads
  cases move with
  | @loadFalse t call count here down =>
      obtain rfl : .openRead t = event := by simpa [observe, here, down] using seen
      have more (u : Thread) : (s.goto t (.reading call count)).held u =
          Function.update s.held t (s.held t + 1) u := by
        by_cases mine : u = t
        · subst mine
          simp [held, here, Pc.isReading]
        · simp [held, goto_pc_of_ne _ _ _ _ mine, mine]
      rw [lockView_readers sound.locked after more writes]
      exact .openRead ((lockView_free sound.locked).mpr (sound.locked.outside_of_down down))
  | @leaveRead t call count here allowed =>
      obtain rfl : .closeRead t = event := Option.some.inj seen
      let rest := s.readGuards.countP fun guard => guard.holder = t
      have inside : s.held t = rest + 1 := by simp [held, here, Pc.isReading, rest]
      have less (u : Thread) : ((s.fetchSub count).goto t .idle).held u =
          Function.update s.held t rest u := by
        by_cases mine : u = t
        · subst mine
          simp [held, Pc.isReading, rest]
        · simp [held, goto_pc_of_ne _ _ _ _ mine, mine]
      rw [lockView_readers sound.locked after less writes]
      exact .closeRead inside
  | @dropRead t guard idle live holder =>
      obtain rfl : .closeRead t = event := Option.some.inj seen
      let rest := (s.readGuards.erase guard).countP fun other => other.holder = t
      have erased := countP_erase_holder live
      have inside : s.held t = rest + 1 := by
        rw [held, erased, if_pos holder.symm, idle]
        rfl
      have less (u : Thread) :
          ({ s with readGuards := s.readGuards.erase guard }.fetchSub guard.count).held u =
            Function.update s.held t rest u := by
        by_cases mine : u = t
        · subst mine
          simp [held, idle, Pc.isReading, rest]
        · have other : u ≠ guard.holder := fun same => mine (same.trans holder)
          simp [held, erased u, mine, other]
      rw [lockView_readers sound.locked after less writes]
      exact .closeRead inside
  | send =>
      obtain ⟨guard, live, event_eq, sendable, idle, same⟩ := send_of_step stepped
      obtain rfl := Option.some.inj (event_eq.symm.trans seen)
      have inside : s.held guard.holder = s.held guard.holder - 1 + 1 := by
        have erased := countP_erase_holder live guard.holder
        rw [if_pos rfl] at erased
        rw [held]
        omega
      rw [same] at after writes ⊢
      rw [lockView_readers sound.locked after (fun u => held_send live _ u inside) writes]
      exact .sendRead sendable inside rfl
  | @enter t call here =>
      obtain rfl : .openWrite t = event := by simpa [observe, here] using seen
      cases reads
  | @lower t id here =>
      obtain rfl : .closeWrite t = event := by simpa [observe, here] using seen
      cases reads
  | _ => simp_all [observe]

/-- What is seen of an opening or a closing of a write section. -/
theorem stutters_of_writes (sound : s.Sound) (stepped : s.step kind action = some next)
    {event : LockEvent Thread} (seen : s.observe action = some event)
    (writes : event.reads = false) :
    (lock kind.iterIsSend Thread).Step s.lockView event next.lockView := by
  have move := moves_of_step stepped
  have after := (sound.preserved move).locked
  have readers : next.held = s.held := funext <| move.held_of_unseen fun other happens => by
    obtain rfl := Option.some.inj (seen.symm.trans happens)
    exact writes
  cases move with
  | @enter t call here =>
      obtain rfl : .openWrite t = event := by simpa [observe, here] using seen
      have owns : (s.pc t).ownsWrite = true := by rw [here]; rfl
      have outside (u : Thread) : ¬ s.InWriteSection u := by
        rintro (inside | ⟨guard, live, -⟩)
        · have same : u = t := sound.locked.owner_unique
            (.inl (by cases pc : s.pc u <;> simp_all [Pc.inWriteSection, Pc.ownsWrite])) (.inl owns)
          subst same
          simp [here, Pc.inWriteSection] at inside
        · exact absurd (sound.locked.guards_exclude t owns) (List.ne_nil_of_mem live)
      have closed : ¬ s.ReadSectionOpen :=
        sound.drained.drained_closed t (by rw [here]; rfl)
      have only : lockView ({ s with registryLock := none }.goto t (.writing call)) =
          { s.lockView with writer := some t } := by
        refine Lock.ext readers ((lockView_writer after).mpr (.inl ?_))
        rw [goto_pc_self]
        rfl
      rw [only]
      exact .openWrite ((lockView_free sound.locked).mpr outside) (held_eq_zero closed)
  | @lower t id here =>
      obtain rfl : .closeWrite t = event := by simpa [observe, here] using seen
      have inside : s.InWriteSection t := .inl (by rw [here]; rfl)
      have outside : lockView ({ s with writing := false }.goto t (.unlock id)) =
          { s.lockView with writer := none } := by
        refine Lock.ext readers ((lockView_free after).mpr ?_)
        exact after.outside_of_down rfl
      rw [outside]
      exact .closeWrite ((lockView_writer sound.locked).mpr inside)
  | @loadFalse t call count here down =>
      obtain rfl : .openRead t = event := by simpa [observe, here, down] using seen
      cases writes
  | @leaveRead t | @dropRead t =>
      obtain rfl := Option.some.inj seen
      cases writes
  | send =>
      obtain ⟨guard, live, event_eq, -⟩ := send_of_step stepped
      obtain rfl := Option.some.inj (event_eq.symm.trans seen)
      cases writes
  | _ => simp_all [observe]

/-- What is seen of a step is a step of the lock. -/
theorem refines_lock (kind : Kind) : System.Refines (container kind Thread w)
    (lock kind.iterIsSend Thread) observe Sound lockView where
  forward s action next sound stepped := by
    have move := moves_of_step stepped
    have after := sound.preserved move
    refine ⟨after, ?_⟩
    cases seen : s.observe action with
    | none =>
        refine lockView_congr sound.locked after.locked ?_ ?_
        · exact move.held_of_unseen fun event happens => by cases seen.symm.trans happens
        · exact move.writes_of_unseen sound.locked fun event happens => by
            cases seen.symm.trans happens
    | some event =>
        cases reads : event.reads with
        | true => exact stutters_of_reads sound stepped seen reads
        | false => exact stutters_of_writes sound stepped seen reads

end Forward

section Backward

variable {kind : Kind} {s next : State Thread w} {t : Thread}

/-- Nobody is in a call, and every open read section has an iterator; there are
no more of them than events so far. -/
structure Rests (kind : Kind) (taken : Nat) (s : State Thread w) : Prop where
  reachable : (container kind Thread w).Reachable s
  idle : ∀ t, s.pc t = .idle
  few : s.readGuards.length ≤ taken
  iter : ∀ guard ∈ s.readGuards, guard.kind = .iter

/-- What a thread does unseen in a call. -/
theorem silent_of_step (t : Thread) (advanced : s.advance t = some next)
    (unseen : s.observe (.step t) = none) :
    (container kind Thread w).Traces observe s [] next := by
  have moved : (container kind Thread w).Step s (.step t) next := advanced
  exact .silent moved unseen

/-- A reader that finds the flag down. -/
theorem traces_add {call : ReadCall} {count : Nat} (down : s.writing = false) :
    (container kind Thread w).Traces observe (s.goto t (.add call count)) [.openRead t]
      ((s.fetchAdd count).goto t (.reading call count)) := by
  have add : (container kind Thread w).Traces observe (s.goto t (.add call count)) []
      ((s.fetchAdd count).goto t (.load call count)) :=
    silent_of_step t (by simp [advance, goto]) (by simp [observe])
  have load : (container kind Thread w).Step ((s.fetchAdd count).goto t (.load call count))
      (.step t) ((s.fetchAdd count).goto t (.reading call count)) := by
    change advance _ t = _
    simp [advance, down]
  exact add.trans (.seen load (by simp [observe, down]))

/-- A thread opens a read section by itself. -/
theorem traces_read {call : ReadCall} (down : s.writing = false) (free : s.registryLock = none) :
    ∃ (begun : State Thread w) (count : Nat), (container kind Thread w).Traces observe
      (s.goto t (.slot call)) [.openRead t] (begun.goto t (.reading call count)) ∧
        begun.pc = s.pc ∧ begun.readGuards = s.readGuards := by
  cases slot : s.slots t with
  | some count =>
      have found : (container kind Thread w).Traces observe (s.goto t (.slot call)) []
          (s.goto t (.add call count)) :=
        silent_of_step t (by simp [advance, slot]) (by simp [observe])
      exact ⟨s.fetchAdd count, count, found.trans (traces_add down), rfl, rfl⟩
  | none =>
      let pushed : State Thread w := { s with
        registry := s.registry ++ [0]
        slots := Function.update s.slots t (some s.registry.length) }
      have missing : (container kind Thread w).Traces observe (s.goto t (.slot call)) []
          (s.goto t (.register call)) :=
        silent_of_step t (by simp [advance, slot]) (by simp [observe])
      have register : (container kind Thread w).Traces observe (s.goto t (.register call)) []
          ({ s with registryLock := some t }.goto t (.push call)) :=
        silent_of_step t (by simp [advance, free, goto]) (by simp [observe])
      have push : (container kind Thread w).Traces observe
          ({ s with registryLock := some t }.goto t (.push call)) []
          ({ pushed with registryLock := some t }.goto t (.release call s.registry.length)) :=
        silent_of_step t (by simp [advance, goto, pushed]) (by simp [observe])
      have release : (container kind Thread w).Traces observe
          ({ pushed with registryLock := some t }.goto t (.release call s.registry.length)) []
          (pushed.goto t (.add call s.registry.length)) :=
        silent_of_step t (by simp [advance, goto, pushed, free]) (by simp [observe])
      have traces := (((missing.trans register).trans push).trans release).trans
        (traces_add (s := pushed) down)
      exact ⟨pushed.fetchAdd s.registry.length, s.registry.length, traces, rfl, rfl⟩

/-- Nothing is seen of a thread that is by itself in `begin_write`. -/
theorem traces_of_walking {id : Nat} (walks : (walking kind w t).Continues s next)
    (begins : s.BeginsWrite t id) :
    (container kind Thread w).Traces observe s [] next ∧ next.BeginsWrite t id := by
  obtain ⟨actions, steps⟩ := walks
  induction steps with
  | refl => exact ⟨.refl, begins⟩
  | @step actions middle action next _ moved inductionHypothesis =>
      obtain ⟨rfl, stepped, closed⟩ := moved
      obtain ⟨traces, begins⟩ := inductionHypothesis
      have move := moves_of_step stepped
      refine ⟨traces.trans (silent_of_step t stepped ?_), move.beginsWrite_stays begins closed⟩
      obtain ⟨-, writes⟩ := begins
      cases move <;> simp_all [observe, Pc.beginsWrite, Pc.opened]

/-- A thread opens a write section by itself. -/
theorem traces_write {call : WriteCall} (free : s.write = none) (unlocked : s.registryLock = none)
    (zero : ∀ counter ∈ s.registry, counter = 0) :
    ∃ begun : State Thread w, (container kind Thread w).Traces observe (s.goto t (.acquire call))
      [.openWrite t] (begun.goto t (.writing call)) ∧
        begun.pc = s.pc ∧ begun.readGuards = s.readGuards := by
  let raised : State Thread w := { s with write := some t, writing := true }
  let locked : State Thread w := { raised with registryLock := some t }
  have begins : (s.goto t (.acquire call)).BeginsWrite t call.id := by
    simp [BeginsWrite, Pc.call, Pc.beginsWrite]
  have walks : (walking kind w t).Continues (s.goto t (.acquire call))
      (locked.goto t (.scanned call true)) :=
    (walking_to_raised free).trans (walking_to_scanned (s := raised) unlocked zero)
  have enter : (container kind Thread w).Step (locked.goto t (.scanned call true)) (.step t)
      (raised.goto t (.writing call)) := by
    change advance _ t = _
    simp [advance, goto, locked, raised, unlocked]
  have entered : (container kind Thread w).Traces observe (locked.goto t (.scanned call true))
      [.openWrite t] (raised.goto t (.writing call)) := .seen enter (by simp [observe])
  exact ⟨raised, (traces_of_walking walks begins).1.trans entered, rfl, rfl⟩

namespace Rests

variable {taken : Nat} (rests : Rests kind taken s)
include rests

theorem held_eq (u : Thread) : s.held u = s.readGuards.countP fun guard => guard.holder = u := by
  rw [held, rests.idle u]
  rfl

theorem registryLock_eq : s.registryLock = none := by
  refine Option.eq_none_iff_forall_ne_some.mpr fun u owner => ?_
  have owns := ((sound_of_reachable rests.reachable).registered.lock_iff u).mp owner
  simp [rests.idle u, Pc.ownsRegistry] at owns

theorem write_eq (free : s.lockView.writer = none) : s.write = none := by
  have locked := (sound_of_reachable rests.reachable).locked
  refine Option.eq_none_iff_forall_ne_some.mpr fun u owner => ?_
  rcases (locked.owner_iff u).mp owner with owns | guarded
  · simp [rests.idle u, Pc.ownsWrite] at owns
  · exact (lockView_free locked).mp free u (.inr guarded)

/-- A thread that has a read section open has an iterator. -/
theorem exists_guard {u : Thread} {rest : Nat} (inside : s.held u = rest + 1) :
    ∃ guard ∈ s.readGuards, guard.holder = u := by
  have some : 0 < s.readGuards.countP fun guard => guard.holder = u := by
    rw [← rests.held_eq, inside]
    exact Nat.succ_pos rest
  simpa using List.countP_pos_iff.mp some

theorem hasRoom (room : taken + 1 < 2 ^ w) (u : Thread) : s.HasRoom u := by
  have bound : s.guardsOf u ≤ s.readGuards.length := by
    unfold guardsOf
    cases s.slots u with
    | none => exact Nat.zero_le _
    | some count => exact List.countP_le_length
  have few := rests.few
  unfold HasRoom
  omega

theorem openRead (room : taken + 1 < 2 ^ w) (u : Thread) (free : s.lockView.writer = none) :
    ∃ next, (container kind Thread w).Traces observe s [.openRead u] next ∧
      Rests kind (taken + 1) next := by
  have down : s.writing = false :=
    (sound_of_reachable rests.reachable).locked.flag_free (rests.write_eq free)
  let called : State Thread w := { s with nextCall := s.nextCall + 1 }
  have call : (container kind Thread w).Step s (.read u .iter)
      (called.goto u (.slot ⟨s.nextCall, .iter⟩)) := if_pos ⟨rests.idle u, rests.hasRoom room u⟩
  obtain ⟨begun, count, opens, pc, guards⟩ : ∃ (begun : State Thread w) (count : Nat),
      (container kind Thread w).Traces observe (called.goto u (.slot ⟨s.nextCall, .iter⟩))
        [.openRead u] (begun.goto u (.reading ⟨s.nextCall, .iter⟩ count)) ∧
          begun.pc = s.pc ∧ begun.readGuards = s.readGuards :=
    traces_read (s := called) down rests.registryLock_eq
  let returned : State Thread w := { begun with
    readGuards := ⟨s.nextCall, .iter, count, u⟩ :: begun.readGuards }
  have leave : (container kind Thread w).Step (begun.goto u (.reading ⟨s.nextCall, .iter⟩ count))
      (.leaveRead u (some .iter)) (returned.goto u .idle) := by
    change step kind _ _ = _
    simp [step, ReadMethod.handsOut, goto, returned]
  have traces := ((System.Traces.silent call rfl).trans opens).trans (.silent leave rfl)
  refine ⟨_, traces, traces.reachable rests.reachable, fun v => ?_, ?_, fun guard live => ?_⟩
  · have idle := rests.idle v
    rw [goto_pc]
    split
    · rfl
    · rw [← pc] at idle
      exact idle
  · have few := rests.few
    simp only [goto_readGuards, returned, guards, List.length_cons]
    omega
  · rw [goto_readGuards] at live
    rcases List.mem_cons.mp live with rfl | live
    · rfl
    · exact rests.iter guard (guards ▸ live)

theorem closeRead {u : Thread} {rest : Nat} (inside : s.held u = rest + 1) :
    ∃ next, (container kind Thread w).Traces observe s [.closeRead u] next ∧
      Rests kind (taken + 1) next := by
  obtain ⟨id, next, stepped⟩ : ∃ id next, s.step kind (.dropRead u id) = some next := by
    obtain ⟨guard, live, rfl⟩ := rests.exists_guard inside
    exact ⟨guard.id, exists_dropRead live (rests.idle guard.holder)⟩
  have moved : (container kind Thread w).Step s (.dropRead u id) next := stepped
  have reached := rests.reachable.step moved
  refine ⟨next, .seen moved rfl, ?_⟩
  cases moves_of_step stepped with
  | @dropRead _ guard idle live holder =>
      have fewer : (s.readGuards.erase guard).length ≤ taken + 1 :=
        List.length_erase_le.trans (rests.few.trans (Nat.le_succ taken))
      exact ⟨reached, rests.idle, fewer,
        fun other member => rests.iter other (List.mem_of_mem_erase member)⟩

theorem sendRead {u receiver : Thread} {rest : Nat} (sendable : kind.iterIsSend = true)
    (inside : s.held u = rest + 1) :
    ∃ next, (container kind Thread w).Traces observe s [.sendRead u receiver] next ∧
      Rests kind (taken + 1) next := by
  obtain ⟨guard, live, rfl⟩ := rests.exists_guard inside
  have found : s.readGuards.find? (fun other => other.id = guard.id ∧ other.kind = .iter) =
      some guard := by
    have some : (s.readGuards.find?
        fun other => other.id = guard.id ∧ other.kind = .iter).isSome := by
      rw [List.find?_isSome]
      exact ⟨guard, live, by simp [rests.iter guard live]⟩
    obtain ⟨other, found⟩ := Option.isSome_iff_exists.mp some
    have matched := List.find?_some found
    have same : other = guard := List.inj_on_of_nodup_map (nodup_of_reachable rests.reachable)
      (List.mem_of_find?_eq_some found) live (of_decide_eq_true matched).1
    rw [found, same]
  have moved : (container kind Thread w).Step s (.send guard.id receiver) { s with
      readGuards := { guard with holder := receiver } :: s.readGuards.erase guard } := by
    change step kind _ _ = _
    simp only [step, found, sendable, rests.idle receiver, and_self, if_true]
  have seen : s.observe (.send guard.id receiver) = some (.sendRead guard.holder receiver) := by
    rw [observe, found]
    rfl
  refine ⟨_, .seen moved seen, rests.reachable.step moved, rests.idle, ?_, fun other member => ?_⟩
  · have length := List.length_erase_of_mem live
    have some := List.length_pos_of_mem live
    have few := rests.few
    simp only [List.length_cons]
    omega
  · rcases List.mem_cons.mp member with rfl | member
    · exact rests.iter guard live
    · exact rests.iter other (List.mem_of_mem_erase member)

theorem openWrite (u : Thread) (free : s.lockView.writer = none) (alone : ∀ v, s.held v = 0) :
    ∃ next, (container kind Thread w).Traces observe s [.openWrite u] next ∧
      Rests kind (taken + 1) next := by
  have sound := sound_of_reachable rests.reachable
  have guards : s.readGuards = [] := by
    refine List.eq_nil_iff_forall_not_mem.mpr fun guard live => ?_
    have none := rests.held_eq guard.holder
    rw [alone, eq_comm, List.countP_eq_zero] at none
    simpa using none guard live
  have zero : ∀ counter ∈ s.registry, counter = 0 :=
    counter_eq_zero sound.registered sound.accounted guards fun v => by rw [rests.idle v]; rfl
  let called : State Thread w := { s with nextCall := s.nextCall + 1 }
  have call : (container kind Thread w).Step s (.write u .iterMut)
      (called.goto u (.acquire ⟨s.nextCall, .iterMut⟩)) := if_pos ⟨rests.idle u, rfl⟩
  obtain ⟨begun, opens, pc, same⟩ : ∃ begun : State Thread w,
      (container kind Thread w).Traces observe (called.goto u (.acquire ⟨s.nextCall, .iterMut⟩))
        [.openWrite u] (begun.goto u (.writing ⟨s.nextCall, .iterMut⟩)) ∧
          begun.pc = s.pc ∧ begun.readGuards = s.readGuards :=
    traces_write (s := called) (rests.write_eq free) rests.registryLock_eq zero
  let returned : State Thread w := { begun with
    writeGuards := ⟨s.nextCall, .iter, u⟩ :: begun.writeGuards }
  have leave : (container kind Thread w).Step (begun.goto u (.writing ⟨s.nextCall, .iterMut⟩))
      (.leaveWrite u (some .iter)) (returned.goto u .idle) := by
    change step kind _ _ = _
    simp [step, WriteMethod.handsOut, goto, returned]
  have traces := ((System.Traces.silent call rfl).trans opens).trans (.silent leave rfl)
  have none : (returned.goto u .idle).readGuards = [] := same.trans guards
  refine ⟨_, traces, traces.reachable rests.reachable, fun v => ?_, ?_, fun guard live => ?_⟩
  · have idle := rests.idle v
    rw [goto_pc]
    split
    · rfl
    · rw [← pc] at idle
      exact idle
  · rw [none]
    exact Nat.zero_le _
  · rw [none] at live
    cases live

theorem closeWrite {u : Thread} (inside : s.lockView.writer = some u) :
    ∃ next, (container kind Thread w).Traces observe s [.closeWrite u] next ∧
      Rests kind (taken + 1) next := by
  have locked := (sound_of_reachable rests.reachable).locked
  obtain ⟨id, dropped, stepped⟩ : ∃ id next, s.step kind (.dropWrite u id) = some next := by
    rcases (lockView_writer locked).mp inside with writes | ⟨guard, live, rfl⟩
    · simp [rests.idle u, Pc.inWriteSection] at writes
    · exact ⟨guard.id, exists_dropWrite live (rests.idle guard.holder)⟩
  have moved : (container kind Thread w).Step s (.dropWrite u id) dropped := stepped
  cases moves_of_step stepped with
  | @dropWrite _ guard idle live holder =>
      let lowered : State Thread w := { s with
        writeGuards := s.writeGuards.erase guard, writing := false }
      have lower : (container kind Thread w).Step
          ({ s with writeGuards := s.writeGuards.erase guard }.goto u (.lower guard.id))
          (.step u) (lowered.goto u (.unlock guard.id)) := by
        change advance _ u = _
        simp [advance, goto, lowered]
      have unlock : (container kind Thread w).Step (lowered.goto u (.unlock guard.id))
          (.step u) ({ lowered with write := none }.goto u .idle) := by
        change advance _ u = _
        simp [advance, goto]
      have closes : (container kind Thread w).Traces observe s [.closeWrite u]
          ({ lowered with write := none }.goto u .idle) :=
        ((System.Traces.silent moved rfl).trans (.seen lower (by simp [observe]))).trans
          (.silent unlock (by simp [observe]))
      refine ⟨_, closes, closes.reachable rests.reachable, fun v => ?_,
        rests.few.trans (Nat.le_succ taken), rests.iter⟩
      rw [goto_pc]
      split
      · rfl
      · exact rests.idle v

/-- Whatever the lock can do, a container that rests can be seen to do. -/
theorem exists_traces (room : taken + 1 < 2 ^ w) {event : LockEvent Thread} {viewed : Lock Thread}
    (move : Lock.Moves kind.iterIsSend s.lockView event viewed) :
    ∃ next, (container kind Thread w).Traces observe s [event] next ∧
      Rests kind (taken + 1) next := by
  cases move with
  | @openRead u free => exact rests.openRead room u free
  | closeRead inside => exact rests.closeRead inside
  | sendRead sendable inside => exact rests.sendRead sendable inside
  | @openWrite u free alone => exact rests.openWrite u free alone
  | closeWrite inside => exact rests.closeWrite inside

end Rests

/-- The container realises the lock, as long as the sections of a thread fit in
its counter. -/
theorem realizes_lock (kind : Kind) : System.Realizes (container kind Thread w)
    (lock kind.iterIsSend Thread) observe (Rests kind) lockView (2 ^ w - 1) where
  backward taken s event viewed below rests move := by
    obtain ⟨next, traces, rested⟩ := rests.exists_traces (by omega) move
    have sound := sound_of_reachable rests.reachable
    obtain ⟨-, steps⟩ := (refines_lock kind).steps traces sound
    obtain ⟨last, seen, rest⟩ := steps.of_cons
    rw [rest.of_nil] at seen
    exact ⟨next, traces, rested, Lock.Moves.unique seen move⟩

end Backward

end State

open State

/-- The container is a reader-writer lock. What can be seen of any run are the
steps of the lock, under the view; and any fewer than `2 ^ w` steps of the lock,
by any threads, can be seen of a run that leads to the same view. -/
theorem container_is_lock (kind : Kind) {Thread : Type} [DecidableEq Thread] (w : Nat)
    (events : List (LockEvent Thread)) :
    (∀ s : State Thread w, (container kind Thread w).Traces observe (.new Thread w) events s →
      (lock kind.iterIsSend Thread).Steps (.new Thread) events s.lockView) ∧
    (events.length < 2 ^ w → ∀ l, (lock kind.iterIsSend Thread).Steps (.new Thread) events l →
      ∃ s : State Thread w, (container kind Thread w).Traces observe (.new Thread w) events s ∧
        s.lockView = l) := by
  have view : (State.new Thread w).lockView = .new Thread := rfl
  constructor
  · intro s traces
    exact view ▸ ((refines_lock kind).steps traces .new).2
  · intro short l steps
    have rests : Rests kind 0 (State.new Thread w) :=
      ⟨.initial rfl, fun _ => rfl, Nat.le_refl _, by simp [State.new]⟩
    obtain ⟨s, traces, -, viewed⟩ :=
      (realizes_lock kind).exists_traces rests view steps (by omega)
    exact ⟨s, traces, viewed⟩

/-- Two readers at the same time, and a writer when they have left. -/
theorem two_readers_then_writer : ∃ s : State (Fin 2) 64,
    (container .hashMap (Fin 2) 64).Traces observe (.new (Fin 2) 64)
      [.openRead 0, .openRead 1, .closeRead 0, .closeRead 1, .openWrite 0] s ∧
      s.lockView.writer = some 0 := by
  have reads : (lock false (Fin 2)).Steps (.new (Fin 2)) [.openRead 0, .openRead 1] _ :=
    .step (.step .refl (Lock.Moves.openRead rfl)) (Lock.Moves.openRead rfl)
  have left : (lock false (Fin 2)).Steps (.new (Fin 2))
      [.openRead 0, .openRead 1, .closeRead 0, .closeRead 1] _ :=
    .step (.step reads (Lock.Moves.closeRead rfl)) (Lock.Moves.closeRead rfl)
  have steps : (lock false (Fin 2)).Steps (.new (Fin 2))
      [.openRead 0, .openRead 1, .closeRead 0, .closeRead 1, .openWrite 0] _ :=
    .step left (Lock.Moves.openWrite rfl (by decide))
  obtain ⟨s, traces, viewed⟩ := (container_is_lock .hashMap 64 _).2 (by decide) _ steps
  exact ⟨s, traces, by rw [viewed]⟩

end DarkStd.Sync
