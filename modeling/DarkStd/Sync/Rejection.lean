import DarkStd.Sync.Linearization

/-!
# Writes that unwind

A panic in the body of a write method drops its `WriteLock`, and a panic of a
caller that holds a write guard drops the guard. Either way the drop clears the
flag while the mutex is still locked, and only then the field `_lock` releases
the mutex, so the flag that is cleared is the writer's own.
-/

namespace DarkStd.Sync

open DarkStd.Semantics

/-- In the middle of the drop of a `WriteLock`. -/
def Pc.drops : Pc → Bool
  | .lower _ | .unlock _ => true
  | _ => false

theorem Pc.ownsWrite_of_drops {pc : Pc} (drops : pc.drops = true) : pc.ownsWrite = true := by
  cases pc <;> simp_all [Pc.drops, Pc.ownsWrite]

namespace State

variable {Thread : Type} {w : Nat}

/-- The thread is about to clear the flag, which nobody else has raised. -/
structure Lowering (s : State Thread w) (t : Thread) (id : Nat) : Prop where
  here : s.pc t = .lower id
  owned : s.write = some t
  up : s.writing = true
  alone : ∀ u, u ≠ t → (s.pc u).raised = false
  unguarded : s.writeGuards = []

/-- The thread is about to release the mutex, and the flag is down. -/
structure Unlocking (s : State Thread w) (t : Thread) (id : Nat) : Prop where
  here : s.pc t = .unlock id
  owned : s.write = some t
  down : s.writing = false
  alone : ∀ u, (s.pc u).raised = false
  unguarded : s.writeGuards = []

variable {s : State Thread w} {t : Thread} {id : Nat}

/-- Whoever has raised the flag owns the mutex. -/
theorem Locked.raised_eq_false (locked : s.Locked) (owns : (s.pc t).ownsWrite = true) {u : Thread}
    (other : u ≠ t) : (s.pc u).raised = false := by
  by_contra raised
  have owns' : (s.pc u).ownsWrite = true := by
    cases here : s.pc u <;> simp_all [Pc.raised, Pc.ownsWrite]
  exact other (locked.owner_unique (.inl owns') (.inl owns))

theorem Locked.lowering (locked : s.Locked) (here : s.pc t = .lower id) : s.Lowering t id := by
  have owns : (s.pc t).ownsWrite = true := by rw [here]; rfl
  exact ⟨here, (locked.owner_iff t).mpr (.inl owns), locked.up_of_raised (by rw [here]; rfl),
    fun u other => locked.raised_eq_false owns other, locked.guards_exclude t owns⟩

theorem Locked.unlocking (locked : s.Locked) (here : s.pc t = .unlock id) : s.Unlocking t id := by
  have owns : (s.pc t).ownsWrite = true := by rw [here]; rfl
  have down : s.writing = (s.pc t).raised := locked.flag_call t owns
  refine ⟨here, (locked.owner_iff t).mpr (.inl owns), by rw [down, here]; rfl, fun u => ?_,
    locked.guards_exclude t owns⟩
  by_cases same : u = t
  · rw [same, here]
    rfl
  · exact locked.raised_eq_false owns same

variable [DecidableEq Thread] {kind : Kind} {next : State Thread w} {action : Action Thread}

/-- Only its own thread goes on with the drop of a `WriteLock`. -/
theorem Moves.pc_of_drops (move : Moves kind s action next) (drops : (s.pc t).drops = true)
    (other : action ≠ .step t) : next.pc t = s.pc t := by
  cases move with
  | dropRead | send => rfl
  | @read u | @write u | @loadFalse u | @enter u | @rescan u | @scanEnd u | @scanZero u
  | @scanNonzero u | @slotFound u | @slotMissing u | @register u | @push u | @release u | @add u
  | @loadTrue u | @backOff u | @acquire u | @raise u | @scanLock u | @lower u | @unlock u
  | @leaveRead u | @returnRead u | @leaveWrite u | @returnWrite u | @dropWrite u =>
      by_cases actor : t = u
      · subst actor
        simp_all [Pc.drops]
      · exact goto_pc_of_ne _ _ _ _ actor

end State

namespace Store

variable {C Thread : Type} {methods : Interface C} {w : Nat}
variable [DecidableEq Thread] {kind : Kind} {first : C} {s next : Store methods Thread w}
variable {action : StoreAction methods Thread} {t : Thread}

/-- A write of the thread starts to unwind after `begin_write` has returned. -/
inductive Unwinds (kind : Kind) (s : Store methods Thread w) (t : Thread) :
    Store methods Thread w → Prop where
  /-- The body of the running method has panicked. -/
  | body {call op next} (here : s.sync.pc t = .writing call)
      (running : s.running t = some ⟨op, .done .panicked⟩)
      (stepped : s.step kind (.leave t) = some next) : Unwinds kind s t next
  /-- The caller panics while it holds a write guard or a write iterator. -/
  | holder {id next} (stepped : s.step kind (.dropWrite t id) = some next) : Unwinds kind s t next

theorem Unwinds.dropping (unwinds : s.Unwinds kind t next) :
    ∃ id, next.sync.pc t = .lower id ∧ next.content = s.content := by
  cases unwinds with
  | body here running stepped =>
      cases moves_of_step stepped with
      | leaveRead here' => cases here.symm.trans here'
      | leaveWrite here' running' hands move =>
          obtain ⟨rfl, same⟩ := Running.mk.inj (Option.some.inj (running.symm.trans running'))
          obtain rfl := Body.done.inj same
          obtain rfl := Option.some.inj hands
          cases move
          exact ⟨_, State.goto_pc_self .., rfl⟩
  | holder stepped =>
      cases moves_of_step stepped with
      | dropWrite move =>
          cases move
          exact ⟨_, State.goto_pc_self .., rfl⟩

/-- While a `WriteLock` is dropped nobody changes the content. -/
theorem Moves.content_eq (move : Moves kind s action next) (recorded : Recorded first s)
    (locked : s.sync.Locked) (drops : (s.sync.pc t).drops = true) : next.content = s.content := by
  have owns := Pc.ownsWrite_of_drops drops
  cases move with
  | @access u position call after rest opened running accessed =>
      obtain ⟨call', found, fits⟩ := recorded.running u position (Pc.call_of_opened opened)
      obtain rfl := Option.some.inj (running.symm.trans found)
      rcases openRead_or_openWrite opened with ⟨reads, -⟩ | ⟨writes, -⟩
      · rw [reads] at fits
        exact (fits.2.step accessed).1
      · have owns' : (s.sync.pc u).ownsWrite = true := by
          cases at_ : s.sync.pc u <;> simp_all [Pc.opened, Pc.inRead, Pc.ownsWrite]
        obtain rfl := locked.owner_unique (.inl owns') (.inl owns)
        cases at_ : s.sync.pc u <;> simp_all [Pc.opened, Pc.drops]
  | use live => exact absurd (locked.guards_exclude t owns) (List.ne_nil_of_mem live)
  | _ => rfl

/-- Only its own thread goes on with the drop of a `WriteLock`. -/
theorem Moves.pc_of_drops (move : Moves kind s action next) (drops : (s.sync.pc t).drops = true)
    (other : action ≠ .step t) : next.sync.pc t = s.sync.pc t := by
  cases move with
  | read move | write move | leaveRead _ _ _ move | leaveWrite _ _ _ move | dropRead move
  | dropWrite move | send move => exact move.pc_of_drops drops (by simp)
  | walk move | opens move =>
      refine move.pc_of_drops drops ?_
      rintro ⟨⟩
      exact other rfl
  | access | look | use => rfl

/-- The other threads leave the drop of a `WriteLock` and the content alone. -/
theorem drops_of_steps {content : C} {others : List (StoreAction methods Thread)}
    (run : (store kind methods Thread w content).Steps s others next)
    (reachable : (store kind methods Thread w content).Reachable s)
    (waits : .step t ∉ others) (drops : (s.sync.pc t).drops = true) :
    next.sync.pc t = s.sync.pc t ∧ next.content = s.content := by
  induction run with
  | refl => exact ⟨rfl, rfl⟩
  | @step others middle action next prior stepped inductionHypothesis =>
      obtain ⟨pc, same⟩ := inductionHypothesis fun member => waits (List.mem_append_left _ member)
      obtain ⟨sound, -, recorded, -⟩ := invariants_of_reachable (prior.reachable reachable)
      have move := moves_of_step stepped
      have still : (middle.sync.pc t).drops = true := pc ▸ drops
      have other : action ≠ .step t := by
        rintro rfl
        exact waits (List.mem_append_right _ (List.mem_singleton_self _))
      exact ⟨(move.pc_of_drops still other).trans pc,
        (move.content_eq recorded sound.locked still).trans same⟩

theorem step_lower {id : Nat} (here : s.sync.pc t = .lower id) :
    s.step kind (.step t) =
      some { s with sync := { s.sync with writing := false }.goto t (.unlock id) } := by
  simp only [step, State.step, State.advance, here, Option.map_some, State.goto_pc_self, Pc.opened]

theorem step_unlock {id : Nat} (here : s.sync.pc t = .unlock id) :
    s.step kind (.step t) =
      some { s with sync := { s.sync with write := none }.goto t .idle } := by
  simp only [step, State.step, State.advance, here, Option.map_some, State.goto_pc_self, Pc.opened]

/-- Whatever the other threads do from here on, the thread can go on and clear
the flag, which is its own and nobody else's; then it can go on and release the
mutex, which leaves the lock free and the flag down. The content is not touched
before that. -/
def Releases (kind : Kind) (content : C) (s : Store methods Thread w) (t : Thread) : Prop :=
  ∃ id, ∀ others lowering, (store kind methods Thread w content).Steps s others lowering →
    .step t ∉ others →
    lowering.sync.Lowering t id ∧ lowering.content = s.content ∧
    ∃ lowered, lowering.step kind (.step t) = some lowered ∧
      lowered.sync.writing = false ∧ lowered.sync.write = some t ∧
    ∀ others unlocking, (store kind methods Thread w content).Steps lowered others unlocking →
      .step t ∉ others →
      unlocking.sync.Unlocking t id ∧ unlocking.content = s.content ∧
      ∃ free, unlocking.step kind (.step t) = some free ∧
        free.sync.write = none ∧ free.sync.writing = false ∧ free.sync.pc t = .idle ∧
        free.content = s.content

theorem releases_of_lower {content : C} {id : Nat}
    (reachable : (store kind methods Thread w content).Reachable s)
    (here : s.sync.pc t = .lower id) : Releases kind content s t := by
  refine ⟨id, fun others lowering run waits => ?_⟩
  obtain ⟨pc, same⟩ := drops_of_steps run reachable waits (by rw [here]; rfl)
  have at_lower := pc.trans here
  have reached := run.reachable reachable
  have lowers := (invariants_of_reachable reached).sound.locked.lowering at_lower
  have stepped : lowering.step kind (.step t) = _ := step_lower at_lower
  refine ⟨lowers, same, _, stepped, rfl, lowers.owned, fun others unlocking run' waits => ?_⟩
  have moved : (store kind methods Thread w content).Step lowering (.step t) _ := stepped
  have reached' := reached.step moved
  have at_unlock : (({ lowering.sync with writing := false } : State Thread w).goto t
      (.unlock id)).pc t = .unlock id := State.goto_pc_self ..
  obtain ⟨pc', same'⟩ := drops_of_steps run' reached' waits (by rw [at_unlock]; rfl)
  have here' := pc'.trans at_unlock
  have unlocks :=
    (invariants_of_reachable (run'.reachable reached')).sound.locked.unlocking here'
  exact ⟨unlocks, same'.trans same, _, step_unlock here', rfl, unlocks.down,
    State.goto_pc_self .., same'.trans same⟩

/-- A section keeps what it was opened with. -/
theorem Moves.start_stays (move : Moves kind s action next) {e : Section methods}
    (member : e ∈ s.history) :
    ∃ other ∈ next.history, other.id = e.id ∧ other.start = e.start := by
  have kept {other : Store methods Thread w} {id : Nat}
      {change : Section methods → Section methods} (same : other.history = s.history)
      (keeps : (change e).id = e.id ∧ (change e).start = e.start) :
      ∃ new ∈ (other.record id change).history, new.id = e.id ∧ new.start = e.start := by
    refine ⟨_, mem_record.mpr ⟨e, same ▸ member, rfl⟩, ?_⟩
    split
    · exact keeps
    · exact ⟨rfl, rfl⟩
  cases move with
  | opens => exact ⟨e, mem_opens.mpr (.inl member), rfl, rfl⟩
  | access | leaveRead | leaveWrite | look | use => exact kept (by rfl) ⟨rfl, rfl⟩
  | _ => exact ⟨e, member, rfl, rfl⟩

/-- The section of a write starts from the content when `begin_write` returns,
and is found under its id ever after. -/
theorem start_of_steps {content : C} {inside : Store methods Thread w} {call : WriteCall}
    {actions : List (StoreAction methods Thread)}
    (reachable : (store kind methods Thread w content).Reachable s)
    (returns : s.step kind (.step t) = some inside) (here : inside.sync.pc t = .writing call)
    (run : (store kind methods Thread w content).Steps inside actions next) :
    ∃ e ∈ next.history, e.id = call.id ∧ e.start = s.content := by
  have opened : (inside.sync.pc t).opened = some call.id := by rw [here]; rfl
  have start : ∃ e ∈ inside.history, e.id = call.id ∧ e.start = s.content := by
    cases moves_of_step returns with
    | walk move still =>
        obtain ⟨running, found, -⟩ := (invariants_of_reachable reachable).recorded.running t call.id
          (move.call_of_step (Pc.call_of_opened opened))
        rcases still with closed | none
        · cases closed.symm.trans opened
        · cases none.symm.trans found
    | opens move opened' =>
        obtain rfl := Option.some.inj (opened.symm.trans opened')
        exact ⟨_, mem_opens.mpr (.inr rfl), rfl, rfl⟩
  refine run.preserves (fun now : Store methods Thread w =>
    ∃ e ∈ now.history, e.id = call.id ∧ e.start = s.content) ?_ start
  rintro middle action after ⟨e, member, id, start⟩ stepped
  obtain ⟨other, member, id', start'⟩ := (moves_of_step stepped).start_stays member
  exact ⟨other, member, id'.trans id, start'.trans start⟩

end Store

/-- The calls that the bounds check of `Vec` rejects. -/
def Vec.Rejects {V : Type} (content : List V) : VecWrite V → Prop
  | .insert index _ => index > content.length
  | .set index _ => index ≥ content.length
  | _ => False

/-- A write of a vector that panics is one of these, and changes nothing. -/
theorem Vec.rejects_of_panicked {V : Type} {op : VecWrite V} {content after : List V}
    (panics : Vec.write op content = (after, .panicked)) :
    after = content ∧ Vec.Rejects content op := by
  cases op with
  | insert index v =>
      simp only [Vec.write] at panics
      split at panics
      case isTrue => simp at panics
      case isFalse outside =>
        obtain ⟨rfl, -⟩ := Prod.mk.inj panics
        exact ⟨rfl, Nat.not_le.mp outside⟩
  | set index v =>
      simp only [Vec.write] at panics
      split at panics
      case isTrue => simp at panics
      case isFalse outside =>
        obtain ⟨rfl, -⟩ := Prod.mk.inj panics
        exact ⟨rfl, Nat.not_lt.mp outside⟩
  | getMut index =>
      simp only [Vec.write] at panics
      split at panics <;> simp at panics
  | _ => simp [Vec.write] at panics

/-- A panicking write releases everything, and a rejected write of a vector
changes nothing. Whatever the other threads do, a write that unwinds clears its
own flag before it releases the mutex, the mutex is free afterwards, and readers
and writers exclude each other all the time; and if it is a write of a vector,
rejected by the bounds check, the content when it unwinds is that when its
`begin_write` has returned. -/
theorem unwinding_writes_release {Thread : Type} [DecidableEq Thread] {w : Nat} :
    (∀ (kind : Kind) (C : Type) (methods : Interface C) (content : C)
      (s next : Store methods Thread w) (t : Thread),
      (store kind methods Thread w content).Reachable s → s.Unwinds kind t next →
      next.content = s.content ∧ Store.Releases kind content next t ∧
      ∀ later, (store kind methods Thread w content).Continues next later →
        (∀ u v, later.sync.HoldsWriteLock u → later.sync.HoldsWriteLock v → u = v) ∧
          ∀ u, later.sync.InWriteSection u → ¬ later.sync.ReadSectionOpen) ∧
    ∀ (V : Type) (eq : V → V → Bool) (content : List V)
      (before inside s : Store (vecMethods V eq) Thread w) (t : Thread) (call : WriteCall)
      (op : VecWrite V) (actions : List (StoreAction (vecMethods V eq) Thread)),
      (store .vec (vecMethods V eq) Thread w content).Reachable before →
      before.step .vec (.step t) = some inside → inside.sync.pc t = .writing call →
      (store .vec (vecMethods V eq) Thread w content).Steps inside actions s →
      s.sync.pc t = .writing call → s.running t = some ⟨.write op, .done .panicked⟩ →
      s.content = before.content ∧ Vec.Rejects before.content op := by
  refine ⟨fun kind C methods content s next t reachable unwinds => ?_, ?_⟩
  · obtain ⟨id, here, same⟩ := unwinds.dropping
    have moved : ∃ action, (store kind methods Thread w content).Step s action next := by
      cases unwinds with
      | body _ _ stepped => exact ⟨_, stepped⟩
      | holder stepped => exact ⟨_, stepped⟩
    obtain ⟨action, moved⟩ := moved
    have reached := reachable.step moved
    refine ⟨same, Store.releases_of_lower reached here, fun later continues => ?_⟩
    have sound := (Store.invariants_of_reachable (continues.reachable reached)).sound
    exact ⟨fun _ _ => sound.locked.holder_unique, fun _ => sound.drained.closed⟩
  · intro V eq content before inside s t call op actions reachable returns here run there running
    have moved : (store .vec (vecMethods V eq) Thread w content).Step before (.step t) inside :=
      returns
    have reached := run.reachable (reachable.step moved)
    obtain ⟨e, member, id, start⟩ := Store.start_of_steps reachable returns here run
    obtain ⟨-, -, recorded, -⟩ := Store.invariants_of_reachable reached
    obtain ⟨same, -, -, ran⟩ :=
      recorded.opened t call.id (by rw [there]; rfl) _ running e member id
    rw [same, start] at ran
    exact Vec.rejects_of_panicked ran.symm

/-- `insert(1, 5)` on an empty vector, when `Vec` has refused the index. -/
def refused (s : Store (vecMethods Nat (· == ·)) (Fin 1) 64) : Bool :=
  match s.running 0 with
  | some ⟨.write (.insert 1 5), .done .panicked⟩ =>
      decide (s.sync.pc 0 = .writing ⟨0, .insert⟩) && (s.step .vec (.leave 0)).isSome
  | _ => false

/-- The same call, when `begin_write` is about to return. -/
def entering (s : Store (vecMethods Nat (· == ·)) (Fin 1) 64) : Bool :=
  decide (s.content = ([] : List Nat)) && (s.step .vec (.step 0)).any fun inside =>
    decide (inside.sync.pc 0 = .writing ⟨0, .insert⟩) && (inside.step .vec (.access 0)).any refused

/-- The same call, until the mutex is free again. -/
theorem refused_insert_releases : ∃ s next : Store (vecMethods Nat (· == ·)) (Fin 1) 64,
    s.content = ([] : List Nat) ∧ Vec.Rejects ([] : List Nat) (.insert 1 5) ∧
      Store.Releases .vec [] next 0 := by
  obtain ⟨before, reachable, met⟩ := System.exists_reachable_of_execute entering
    (show (System.execute (Store.step .vec) (.new (vecMethods Nat (· == ·)) (Fin 1) 64 [])
      [.write 0 (.insert 1 5), .step 0, .step 0, .step 0, .step 0]).any _ = true by decide +kernel)
  obtain ⟨empty, met⟩ := Bool.and_eq_true_iff.mp met
  obtain ⟨inside, entered, met⟩ := (Option.any_eq_true _ _).mp met
  obtain ⟨here, met⟩ := Bool.and_eq_true_iff.mp met
  obtain ⟨s, accessed, met⟩ := (Option.any_eq_true _ _).mp met
  have here := of_decide_eq_true here
  have moved : (store .vec (vecMethods Nat (· == ·)) (Fin 1) 64 []).Step before (.step 0) inside :=
    entered
  have run : (store .vec (vecMethods Nat (· == ·)) (Fin 1) 64 []).Steps inside [.access 0] s :=
    .single accessed
  have reached := run.reachable (reachable.step moved)
  unfold refused at met
  split at met
  case h_2 => cases met
  case h_1 running =>
    obtain ⟨there, leaves⟩ := Bool.and_eq_true_iff.mp met
    have there := of_decide_eq_true there
    obtain ⟨next, left⟩ := Option.isSome_iff_exists.mp leaves
    obtain ⟨same, rejected⟩ := unwinding_writes_release.2 Nat _ [] before inside s 0 _ _ _ reachable
      entered here run there running
    have released := unwinding_writes_release.1 .vec _ _ [] s next 0 reached
      (.body there running left)
    rw [of_decide_eq_true empty] at same rejected
    exact ⟨s, next, same, rejected, released.2.1⟩

end DarkStd.Sync
