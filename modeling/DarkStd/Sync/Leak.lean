import DarkStd.Sync.Starvation
import DarkStd.Sync.Unwinding

/-!
# After a search has unwound

The slot that an unwound search leaves behind is a counter that never comes back
to zero. Nothing is lost until the next write: it raises the flag, its scan never
ends, and from then on nobody gets into the container any more.
-/

namespace DarkStd.Sync

open DarkStd.Semantics

namespace State

variable {Thread : Type} {w : Nat}

/-- The call has been made, and its `begin_read` or `begin_write` has not returned. -/
def Begins (s : State Thread w) (t : Thread) (id : Nat) : Prop :=
  s.BeginsRead t id ∨ s.BeginsWrite t id

variable [DecidableEq Thread]
variable {kind : Kind} {s next : State Thread w} {action : Action Thread} {t : Thread} {id : Nat}

/-- Only the drop of a `WriteLock` lowers the flag. -/
theorem Moves.up_or_lowers (move : Moves kind s action next) (up : s.writing = true) :
    next.writing = true ∨ s.InWriteSection action.thread := by
  cases move with
  | @lower t id here =>
      right
      left
      change (s.pc t).inWriteSection = true
      rw [here]
      rfl
  | raise here => exact .inl rfl
  | _ => exact .inl up

/-- With the flag up, only a writer gets past its begin. -/
theorem Moves.begins_stays (move : Moves kind s action next) (up : s.writing = true)
    (shut : ∀ u, ¬ next.InWriteSection u) (begins : s.Begins t id) : next.Begins t id := by
  rcases begins with reads | writes
  · exact .inl (move.beginsRead_stays up reads)
  · right
    unfold BeginsWrite at writes ⊢
    by_cases mine : action.thread = t
    · have outside : (next.pc t).inWriteSection ≠ true := fun inside => shut t (.inl inside)
      subst mine
      cases move <;> simp_all [Pc.call, Pc.beginsWrite, Pc.inWriteSection]
    · rw [move.pc_of_ne (Ne.symm mine)]
      exact writes

/-- A call that has just been made is at its begin. -/
theorem Moves.begins_of_new (move : Moves kind s action next) (call : (next.pc t).call = some id)
    (new : (s.pc t).call ≠ some id) : next.Begins t id := by
  by_cases mine : action.thread = t
  · subst mine
    unfold Begins BeginsRead BeginsWrite
    cases move <;> simp_all [Pc.call, Pc.beginsWrite, Pc.inRead, Pc.opened]
  · rw [move.pc_of_ne (Ne.symm mine)] at call
    exact absurd call new

end State

namespace Unwinding

variable {Thread : Type} {w : Nat} {C : Type}

/-- A slot has been left behind, and then the flag has been raised. -/
structure Shut (s : Unwinding Thread w C) : Prop where
  left : s.forgotten ≠ []
  up : s.sync.writing = true

variable [DecidableEq Thread]
variable {kind : Kind} {s next : Unwinding Thread w C} {action : UnwindingAction Thread C}
variable {content : C}

/-- The container that is shut runs as it did, or a search of it unwinds. -/
theorem Moves.cases_sync (move : Moves kind s action next) :
    (∃ below, State.Moves kind s.sync below next.sync) ∨ next.sync = s.sync ∨
      ∃ t call count, s.sync.pc t = .reading call count ∧ next.sync = s.sync.goto t .idle := by
  cases move with
  | sync room move => exact .inl ⟨_, move⟩
  | update inside => exact .inr (.inl rfl)
  | found result move => exact .inl ⟨_, move⟩
  | unwind here searches panic => exact .inr (.inr ⟨_, _, _, here, rfl⟩)

theorem Shut.preserved (shut : s.Shut) (sound : s.remembered.Sound)
    (move : Moves kind s action next) : next.Shut where
  left := move.forgotten shut.left
  up := by
    rcases move.cases_sync with ⟨below, move⟩ | same | ⟨t, call, count, here, same⟩
    · refine (move.up_or_lowers shut.up).resolve_right ?_
      exact no_writer_of_forgotten sound shut.left below.thread
    · rw [same]
      exact shut.up
    · rw [same]
      exact shut.up

/-- Who is at a begin of a container that is shut stays there. -/
theorem Shut.begins_stays (shut : s.Shut) (sound : s.remembered.Sound)
    (move : Moves kind s action next) {t : Thread} {id : Nat} (begins : s.sync.Begins t id) :
    next.sync.Begins t id := by
  have closed := no_writer_of_forgotten (move.sound sound) (move.forgotten shut.left)
  rcases move.cases_sync with ⟨below, move⟩ | same | ⟨u, call, count, here, same⟩
  · exact move.begins_stays shut.up closed begins
  · exact same ▸ begins
  · have other : t ≠ u := by
      rintro rfl
      unfold State.Begins State.BeginsRead State.BeginsWrite at begins
      simp_all [Pc.opened, Pc.beginsWrite, Pc.call]
    rw [same]
    unfold State.Begins State.BeginsRead State.BeginsWrite at begins ⊢
    rwa [State.goto_pc_of_ne _ _ _ _ other]

/-- A container that is shut opens no read section. -/
theorem Shut.openRead_before (shut : s.Shut) (move : Moves kind s action next) {id : Nat}
    (isOpen : next.sync.OpenRead id) : s.sync.OpenRead id := by
  rcases move.cases_sync with ⟨below, move⟩ | same | ⟨u, call, count, here, same⟩
  · exact move.openRead_of_up shut.up isOpen
  · exact same ▸ isOpen
  · rw [same] at isOpen
    rcases isOpen with ⟨t, other, position, reading, id_eq⟩ | guarded
    · have running : s.sync.pc t = .reading other position := by
        rw [State.goto_pc] at reading
        split at reading
        case isTrue => cases reading
        case isFalse => exact reading
      exact .inl ⟨t, other, position, running, id_eq⟩
    · exact .inr guarded

/-- A call is one that was made before, or it is new and at its begin. -/
theorem Moves.call_before (move : Moves kind s action next) {t : Thread} {id : Nat}
    (call : (next.sync.pc t).call = some id) :
    (s.sync.pc t).call = some id ∨ next.sync.Begins t id := by
  by_cases old : (s.sync.pc t).call = some id
  · exact .inl old
  · right
    rcases move.cases_sync with ⟨below, move⟩ | same | ⟨u, other, count, here, same⟩
    · exact move.begins_of_new call old
    · exact absurd (same ▸ call) old
    · rw [same, State.goto_pc] at call
      split at call
      case isTrue => cases call
      case isFalse => exact absurd call old

end Unwinding

open Unwinding

/-- A panic in `get` or `contains` and a later write shut the container for
good. In whatever happens after that the flag stays up, no section is opened, and
of the calls that run then, each has been past its `begin_read` already, or it is
in its `begin_read` or `begin_write` and stays there. -/
theorem shut_container_stays_shut {kind : Kind} {Thread : Type} [DecidableEq Thread] {w : Nat}
    {C : Type} {content : C} {s last : Unwinding Thread w C}
    (reachable : (unwinding kind Thread w content).Reachable s) (shut : s.Shut)
    (continues : (unwinding kind Thread w content).Continues s last) :
    last.Shut ∧ (∀ t, ¬ last.sync.InWriteSection t) ∧
      (∀ id, last.sync.OpenRead id → s.sync.OpenRead id) ∧
      (∀ t id, s.sync.Begins t id → last.sync.Begins t id) ∧
      ∀ t id, (last.sync.pc t).call = some id →
        (s.sync.pc t).call = some id ∨ last.sync.Begins t id := by
  obtain ⟨actions, steps⟩ := continues
  induction steps with
  | refl =>
      have closed := no_writer_of_forgotten (sound_of_reachable reachable) shut.left
      exact ⟨shut, closed, fun _ => id, fun _ _ => id, fun _ _ => .inl⟩
  | step prior stepped inductionHypothesis =>
      obtain ⟨still, -, opens, begins, calls⟩ := inductionHypothesis
      have sound := sound_of_reachable (prior.reachable reachable)
      have move := moves_of_step stepped
      have closed := no_writer_of_forgotten (move.sound sound) (move.forgotten still.left)
      refine ⟨still.preserved sound move, closed, ?_, ?_, ?_⟩
      · exact fun id isOpen => opens id (still.openRead_before move isOpen)
      · exact fun t id waits => still.begins_stays sound move (begins t id waits)
      · intro t id call
        rcases move.call_before call with before | new
        · exact (calls t id before).imp_right (still.begins_stays sound move)
        · exact .inr new

/-- `push` by a thread, up to its scan, and `len` by another one. -/
def laterCalls {Thread : Type} (t u : Thread) : List (UnwindingAction Thread (List Nat)) :=
  [.write t .push, .step t, .step t, .read u .len].map .sync

/-- A `contains` that panics, and then a `push` and a `len` that never return. -/
theorem push_after_panic_shuts : ∃ s : Unwinding (Fin 3) 64 (List Nat),
    (unwinding .vec (Fin 3) 64 [1]).Steps (.new (Fin 3) 64 [1])
      (containsCall 0 ++ panickingSearch 0 :: laterCalls 1 2) s ∧
    ∀ last, (unwinding .vec (Fin 3) 64 [1]).Continues s last →
      last.sync.Begins 1 1 ∧ last.sync.Begins 2 2 := by
  obtain ⟨s, run, met⟩ := System.exists_steps_of_execute
    (fun s : Unwinding (Fin 3) 64 (List Nat) => !s.forgotten.isEmpty && s.sync.writing &&
      s.sync.pc 1 == .scanLock ⟨1, .push⟩ && s.sync.pc 2 == .slot ⟨2, .len⟩)
    (show (System.execute (step .vec) (.new (Fin 3) 64 [1])
      (containsCall 0 ++ panickingSearch 0 :: laterCalls 1 2)).any _ = true by decide +kernel)
  simp only [Bool.and_eq_true, beq_iff_eq, Bool.not_eq_true', List.isEmpty_eq_false_iff] at met
  obtain ⟨⟨⟨left, up⟩, writes⟩, reads⟩ := met
  have steps : (unwinding .vec (Fin 3) 64 [1]).Steps (.new (Fin 3) 64 [1]) _ s := run
  refine ⟨s, steps, fun last continues => ?_⟩
  obtain ⟨-, -, -, begins, -⟩ :=
    shut_container_stays_shut (steps.reachable (.initial rfl)) ⟨left, up⟩ continues
  have push : s.sync.Begins 1 1 := .inr ⟨by rw [writes]; rfl, by rw [writes]; rfl⟩
  have len : s.sync.Begins 2 2 :=
    .inl ⟨by rw [reads]; rfl, by rw [reads]; rfl, by rw [reads]; rfl⟩
  exact ⟨begins 1 1 push, begins 2 2 len⟩

end DarkStd.Sync
