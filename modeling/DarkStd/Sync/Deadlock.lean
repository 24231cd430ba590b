import DarkStd.Sync.Comparisons

/-!
# Comparisons that wait for each other

A comparison that has its first section open waits, for its second one, until
the flag of the other vector is down, and the writer there may be waiting for a
first section of another comparison. If some vectors, with their flags up, are
so connected that each has an open first section whose comparison is on its way
into another of them, none of these flags comes down any more. A circle of this
kind is closed by a writer that raises its flag, and by nothing else.
-/

namespace DarkStd.Sync

open DarkStd.Semantics

namespace State

variable {Thread : Type} [DecidableEq Thread] {w : Nat} {kind : Kind}
variable {s next : State Thread w} {action : Action Thread} {t : Thread}

/-- A read section was open before, or the load has just found the flag down. -/
theorem Moves.isReading_of_next (move : Moves kind s action next)
    (reading : (next.pc t).isReading = true) :
    (s.pc t).isReading = true ∨ (s.writing = false ∧ next.writing = false) := by
  cases move with
  | loadFalse here down => exact .inr ⟨down, down⟩
  | dropRead | send => exact .inl reading
  | read here | write here | enter here | rescan here | scanEnd here | scanZero here
  | scanNonzero here | slotFound here | slotMissing here | register here | push here
  | release here | add here | loadTrue here | backOff here | acquire here | raise here
  | scanLock here | lower here | unlock here | leaveRead here | returnRead here | leaveWrite here
  | returnWrite here | dropWrite here =>
      rw [goto_pc] at reading
      split at reading
      case isTrue => simp [Pc.isReading] at reading
      case isFalse => exact .inl reading

/-- A read section of a call stays open until the call returns. -/
theorem Moves.isReading_stays (move : Moves kind s action next)
    (reading : (s.pc t).isReading = true) (stays : action.thread = t → action = .step t) :
    (next.pc t).isReading = true := by
  by_cases actor : action.thread = t
  · obtain rfl := stays actor
    have closed := move.closed_of_step
    cases here : s.pc t <;> simp_all [Pc.opened, Pc.isReading]
  · rwa [move.pc_of_ne (Ne.symm actor)]

end State

namespace Vecs

section Waits

variable {Index Thread V : Type} {w : Nat}

/-- The thread is in a comparison, or in a method of a vector. -/
def InCall (s : Vecs Index Thread V w) (t : Thread) : Prop :=
  s.phases t ≠ .idle ∨ ∃ x, (s.stores x).pc t ≠ .idle

/-- The thread has the first section of a comparison open on the one vector, and
has not yet opened the second on the other. -/
inductive Waits (s : Vecs Index Thread V w) (t : Thread) : Index → Index → Prop where
  | first {self other} (here : s.phases t = .first self other)
      (opened : ((s.stores self).pc t).isReading = true) : Waits s t self other
  | held {self other left} (here : s.phases t = .held self other left) : Waits s t self other
  | second {self other left} (here : s.phases t = .second self other left)
      (entering : ((s.stores other).pc t).isReading = false) : Waits s t self other

/-- Some vectors are closed, and each has an open section of a comparison that
waits for another of them, or for itself. -/
def CircularWait (s : Vecs Index Thread V w) (closed : Index → Prop) : Prop :=
  ∃ circle : Set Index, circle.Nonempty ∧
    ∀ x ∈ circle, closed x ∧ ∃ t, ∃ y ∈ circle, s.Waits t x y

/-- Vectors whose flags are up wait for each other. -/
def Deadlocked (s : Vecs Index Thread V w) : Prop :=
  s.CircularWait fun x => (s.stores x).writing = true

end Waits

variable {Index Thread V : Type} [DecidableEq Index] [DecidableEq Thread] {w : Nat}
variable {eq : V → V → Bool} {s next : Vecs Index Thread V w}
variable {action : VecAction Index Thread V} {t : Thread} {x y : Index}

/-- Every call that has been started returns in some finite continuation. -/
def AllReturn (eq : V → V → Bool) (contents : Index → List V) (s : Vecs Index Thread V w) : Prop :=
  ∃ actions last, (comparisons Thread w eq contents).Steps s actions last ∧
    ∀ t, s.InCall t → ∃ before now, before <+: actions ∧
      (comparisons Thread w eq contents).Steps s before now ∧ ¬ now.InCall t

omit [DecidableEq Index] [DecidableEq Thread] in
theorem Waits.ne_idle (waits : s.Waits t x y) : s.phases t ≠ .idle := by
  cases waits with
  | first here | held here | second here => simp [here]

omit [DecidableEq Index] [DecidableEq Thread] in
/-- The first section is open. -/
theorem Waits.readSectionOpen (waits : s.Waits t x y) (held : s.Held) :
    (s.stores x).ReadSectionOpen := by
  cases waits with
  | first here opened => exact .inr ⟨t, opened⟩
  | held here | second here =>
      obtain ⟨guard, live, -⟩ := held.live t x _ (by rw [here]; exact List.mem_singleton_self _)
      exact .inl (List.ne_nil_of_mem live)

/-- As long as the other vector is closed the comparison keeps waiting. -/
theorem Waits.stays (waits : s.Waits t x y) (stepped : s.step eq action = some next)
    (closed : (s.stores y).writing = true) : next.Waits t x y := by
  have comparing := waits.ne_idle
  rcases (moves_of_step stepped).turns t with ⟨same, keeps⟩ | turn
  · have keeps := keeps.resolve_left fun idle => comparing idle.1
    cases waits with
    | first here opened =>
        refine .first (same.trans here) ?_
        rcases moves_at stepped x with ⟨kept, -⟩ | ⟨below, acts, move⟩
        · rwa [kept]
        · exact move.isReading_stays opened (keeps x below acts)
    | held here => exact .held (same.trans here)
    | second here entering =>
        refine .second (same.trans here) ?_
        rcases moves_at stepped y with ⟨kept, -⟩ | ⟨below, acts, move⟩
        · rwa [kept]
        · by_contra reading
          rcases move.isReading_of_next (Bool.eq_true_of_not_eq_false reading) with
            before | ⟨down, -⟩
          · cases entering.symm.trans before
          · cases closed.symm.trans down
  · generalize there : next.phases t = phase at turn
    cases turn with
    | held here =>
        cases waits with
        | first here' =>
            cases here.symm.trans here'
            exact .held there
        | held here' | second here' => cases here.symm.trans here'
    | second here =>
        cases waits with
        | held here' =>
            cases here.symm.trans here'
            refine .second there ?_
            obtain ⟨call, called⟩ := (move_of_below stepped rfl).pc_of_read
            rw [called]
            rfl
        | first here' | second here' => cases here.symm.trans here'
    | lengths here =>
        cases waits with
        | second here' entering =>
            cases here.symm.trans here'
            cases entering.symm.trans (move_of_below stepped rfl).pc_of_leaveRead.1
        | first here' | held here' => cases here.symm.trans here'
    | compare here => exact absurd here comparing
    | dropped here | returned here =>
        cases waits with
        | first here' | held here' | second here' => cases here.symm.trans here'
    | visit visits =>
        cases waits with
        | first here' | held here' | second here' =>
            rw [here'] at visits
            cases visits

/-- A comparison that waits was waiting before, or its first section has just
been opened, on a vector that is not closed. -/
theorem Waits.before (waits : next.Waits t x y) (stepped : s.step eq action = some next)
    (closed : (next.stores x).writing = true) : s.Waits t x y := by
  rcases (moves_of_step stepped).turns t with ⟨same, keeps⟩ | turn
  · have keeps := keeps.resolve_left fun idle => waits.ne_idle (same.trans idle.1)
    cases waits with
    | first here opened =>
        refine .first (same.symm.trans here) ?_
        rcases moves_at stepped x with ⟨kept, -⟩ | ⟨below, acts, move⟩
        · rwa [kept] at opened
        · rcases move.isReading_of_next opened with before | ⟨-, down⟩
          · exact before
          · cases closed.symm.trans down
    | held here => exact .held (same.symm.trans here)
    | second here entering =>
        refine .second (same.symm.trans here) ?_
        rcases moves_at stepped y with ⟨kept, -⟩ | ⟨below, acts, move⟩
        · rwa [kept] at entering
        · by_contra reading
          have stays := move.isReading_stays (Bool.eq_true_of_not_eq_false reading)
            (keeps y below acts)
          cases entering.symm.trans stays
  · generalize there : next.phases t = phase at turn
    cases turn with
    | compare =>
        cases waits with
        | first here opened =>
            cases there.symm.trans here
            obtain ⟨call, called⟩ := (move_of_below stepped rfl).pc_of_read
            rw [called] at opened
            cases opened
        | held here | second here => cases there.symm.trans here
    | held before =>
        cases waits with
        | held here =>
            cases there.symm.trans here
            exact .first before (move_of_below stepped rfl).pc_of_leaveRead.1
        | first here | second here => cases there.symm.trans here
    | second before =>
        cases waits with
        | second here =>
            cases there.symm.trans here
            exact .held before
        | first here | held here => cases there.symm.trans here
    | lengths | dropped | returned =>
        cases waits with
        | first here | held here | second here => cases there.symm.trans here
    | visit visits =>
        cases waits with
        | first here | held here | second here =>
            cases there.symm.trans here
            generalize s.phases t = before at visits
            cases visits

/-- The vectors of the circle, and who waits there. -/
def Circle (s : Vecs Index Thread V w) (circle : Set Index) : Prop :=
  ∀ x ∈ circle, (s.stores x).writing = true ∧ ∃ t, ∃ y ∈ circle, s.Waits t x y

variable {circle : Set Index} {contents : Index → List V}

/-- A circle stays what it is. -/
theorem Circle.stays (closed : s.Circle circle) (stepped : s.step eq action = some next)
    (reachable : (vecs Thread w eq contents).Reachable s) : next.Circle circle := by
  intro x member
  obtain ⟨up, t, y, member', waits⟩ := closed x member
  refine ⟨?_, t, y, member', waits.stays stepped (closed y member').1⟩
  rcases moves_at stepped x with ⟨kept, -⟩ | ⟨below, -, move⟩
  · rwa [kept]
  · exact move.up_of_open (State.drained_of_reachable (container_reachable reachable x))
      (waits.readSectionOpen (held_of_reachable reachable)) up

/-- A circle that is there after a step was there before, or it is closed by a
writer that raises its flag. -/
theorem deadlocked_before (deadlocked : next.Deadlocked) (stepped : s.step eq action = some next) :
    s.Deadlocked ∨ ∃ x t call, action = .sync x (.step t) ∧ (s.stores x).pc t = .raise call ∧
      s.CircularWait fun y => (s.stores y).writing = true ∨ y = x := by
  obtain ⟨circle, nonempty, closed⟩ := deadlocked
  have waited : ∀ x ∈ circle, ∃ t, ∃ y ∈ circle, s.Waits t x y := by
    intro x member
    obtain ⟨up, t, y, member', waits⟩ := closed x member
    exact ⟨t, y, member', waits.before stepped up⟩
  by_cases all : ∀ x ∈ circle, (s.stores x).writing = true
  · exact .inl ⟨circle, nonempty, fun x member => ⟨all x member, waited x member⟩⟩
  · push Not at all
    obtain ⟨x, member, down⟩ := all
    have raised : ∀ y ∈ circle, (s.stores y).writing = true ∨
        ∃ t call, action = .sync y (.step t) ∧ (s.stores y).pc t = .raise call := by
      intro y member
      rcases moves_at stepped y with ⟨kept, -⟩ | ⟨below, acts, move⟩
      · exact .inl (kept ▸ (closed y member).1)
      · refine (move.up_before (closed y member).1).imp_right ?_
        rintro ⟨t, call, rfl, here⟩
        refine ⟨t, call, ?_, here⟩
        cases action with
        | sync => cases acts; rfl
        | _ => cases acts
    obtain ⟨t, call, rfl, here⟩ := (raised x member).resolve_left down
    refine .inr ⟨x, t, call, rfl, here, circle, nonempty, fun y member => ⟨?_, waited y member⟩⟩
    refine (raised y member).imp_right ?_
    rintro ⟨u, call, same, -⟩
    cases same
    rfl

/-- In a circle nobody returns. -/
theorem not_allReturn_of_deadlocked (reachable : (vecs Thread w eq contents).Reachable s)
    (deadlocked : s.Deadlocked) : ¬ s.AllReturn eq contents := by
  rintro ⟨actions, last, -, returns⟩
  obtain ⟨circle, ⟨x, member⟩, closed⟩ := deadlocked
  obtain ⟨-, t, y, member', waits⟩ := closed x member
  obtain ⟨before, now, -, steps, returned⟩ := returns t (.inl waits.ne_idle)
  have stuck : (vecs Thread w eq contents).Reachable now ∧ now.Circle circle ∧ now.Waits t x y := by
    refine steps.of_restrict.preserves (fun now : Vecs Index Thread V w =>
      (vecs Thread w eq contents).Reachable now ∧ now.Circle circle ∧ now.Waits t x y) ?_
      ⟨reachable, closed, waits⟩
    rintro s action next ⟨reachable, closed, waits⟩ move
    exact ⟨reachable.step move, closed.stays move.2 reachable,
      waits.stays move.2 (closed y member').1⟩
  exact returned (.inl stuck.2.2.ne_idle)

end Vecs

namespace VecAction

variable {Index Thread V : Type} {w : Nat}

/-- A writer raises its flag only where that closes no circle. -/
def Spares (s : Vecs Index Thread V w) (action : VecAction Index Thread V) : Prop :=
  ∀ x t call, action = .sync x (.step t) → (s.stores x).pc t = .raise call →
    ¬ s.CircularWait fun y => (s.stores y).writing = true ∨ y = x

end VecAction

/-- A writer that closes a circle makes one of vectors that wait for each other. -/
theorem Vecs.deadlocked_of_closes {Index Thread V : Type} [DecidableEq Index]
    [DecidableEq Thread] {w : Nat} {eq : V → V → Bool} {s next : Vecs Index Thread V w}
    {action : VecAction Index Thread V} (stepped : s.step eq action = some next)
    (closes : ¬ action.Spares s) : next.Deadlocked := by
  unfold VecAction.Spares at closes
  push Not at closes
  obtain ⟨x, t, call, rfl, here, circle, nonempty, closed⟩ := closes
  cases moves_of_step stepped with
  | @sync _ _ moved _ move =>
      obtain ⟨up, others, raised⟩ : moved.writing = true ∧
          (∀ u, u ≠ t → moved.pc u = (s.stores x).pc u) ∧ (moved.pc t).isReading = false := by
        refine ⟨?_, fun u other => move.pc_of_ne other, ?_⟩
        · cases move <;> simp_all
        · cases move <;> simp_all [Pc.isReading]
      -- The writer is in no section, and nobody else has moved.
      have reading (u : Thread) (y : Index) :
          (((s.put x moved).stores y).pc u).isReading = ((s.stores y).pc u).isReading := by
        by_cases there : y = x
        · subst there
          rw [put_stores_self]
          by_cases actor : u = t
          · rw [actor, raised, here]
            rfl
          · rw [others u actor]
        · rw [put_stores_of_ne _ _ _ _ there]
      refine ⟨circle, nonempty, fun y member => ?_⟩
      obtain ⟨shut, u, z, member', waits⟩ := closed y member
      refine ⟨?_, u, z, member', ?_⟩
      · change ((s.put x moved).stores y).writing = true
        by_cases there : y = x
        · rw [there, put_stores_self]
          exact up
        · rw [put_stores_of_ne _ _ _ _ there]
          exact shut.resolve_right there
      · cases waits with
        | first phase opened => exact .first phase ((reading u y).trans opened)
        | held phase => exact .held phase
        | second phase entering => exact .second phase ((reading u z).trans entering)

/-- In the runs whose steps all spare the circles there are none. -/
theorem Vecs.not_deadlocked_of_spared {Index Thread V : Type} [DecidableEq Index]
    [DecidableEq Thread] {w : Nat} {eq : V → V → Bool} {contents : Index → List V}
    {s : Vecs Index Thread V w}
    (reachable : ((comparisons Thread w eq contents).restrict VecAction.Spares).Reachable s) :
    ¬ s.Deadlocked := by
  refine reachable.invariant (fun s : Vecs Index Thread V w => ¬ s.Deadlocked) ?_ ?_
  · rintro _ rfl ⟨circle, ⟨x, member⟩, closed⟩
    cases (closed x member).1
  · rintro s action next - free ⟨spares, -, -, stepped⟩ deadlocked
    rcases deadlocked_before deadlocked stepped with before | ⟨x, t, call, same, here, circular⟩
    · exact free before
    · exact spares x t call same here circular

end DarkStd.Sync
