import DarkStd.Sync.Sections

/-!
# A writer by itself

What one thread brings about by its own steps: from `self.write.lock()` to the
flag, through the all-zero scan, and out of the drop of a `WriteLock`. In none
of these steps does it open a section.
-/

namespace DarkStd.Sync

open DarkStd.Semantics

/-- The steps of one thread that open no section. -/
def walking (kind : Kind) {Thread : Type} [DecidableEq Thread] (w : Nat) (t : Thread) :
    System (State Thread w) (Action Thread) where
  Initial s := s = .new Thread w
  Step s action next :=
    action = .step t ∧ s.step kind action = some next ∧ (next.pc t).opened = none

namespace State

variable {Thread : Type} [DecidableEq Thread] {w : Nat}
variable {kind : Kind} {s : State Thread w} {t : Thread} {call : WriteCall} {id : Nat}

@[simp] theorem goto_goto (pc pc' : Pc) : (s.goto t pc).goto t pc' = s.goto t pc' := by
  simp only [goto, Function.update_idem]

theorem goto_of_eq {pc : Pc} (here : s.pc t = pc) : s.goto t pc = s := by
  simp only [goto, ← here, Function.update_eq_self]

theorem walking_of_step {next : State Thread w} (stepped : s.advance t = some next)
    (outside : (next.pc t).opened = none) : (walking kind w t).Continues s next :=
  .single ⟨rfl, stepped, outside⟩

/-- A writer takes the free mutex and raises the flag. -/
theorem walking_to_raised (free : s.write = none) :
    (walking kind w t).Continues (s.goto t (.acquire call))
      ({ s with write := some t, writing := true }.goto t (.scanLock call)) := by
  have acquired : (walking kind w t).Continues (s.goto t (.acquire call))
      ({ s with write := some t }.goto t (.raise call)) :=
    walking_of_step (by simp [advance, free, goto]) (by simp [Pc.opened])
  refine acquired.trans (walking_of_step ?_ (by simp [Pc.opened]))
  simp [advance, goto]

/-- The scan passes over counters that are zero. -/
theorem walking_to_scan {position : Nat}
    (zero : ∀ earlier < position, s.registry[earlier]? = some 0) :
    (walking kind w t).Continues (s.goto t (.scan call 0)) (s.goto t (.scan call position)) := by
  induction position with
  | zero => exact .refl _
  | succ position inductionHypothesis =>
      refine (inductionHypothesis fun earlier below => zero earlier (Nat.lt_succ_of_lt below)).trans
        (walking_of_step ?_ (by simp [Pc.opened]))
      have loaded : s.registry[position]? = some 0 := zero position (Nat.lt_succ_self _)
      simp [advance, loaded]

/-- A writer that finds every counter zero is through. -/
theorem walking_to_scanned (free : s.registryLock = none)
    (zero : ∀ counter ∈ s.registry, counter = 0) :
    (walking kind w t).Continues (s.goto t (.scanLock call))
      ({ s with registryLock := some t }.goto t (.scanned call true)) := by
  let locked : State Thread w := { s with registryLock := some t }
  have started : (walking kind w t).Continues (s.goto t (.scanLock call))
      (locked.goto t (.scan call 0)) :=
    walking_of_step (by simp [advance, free, goto, locked]) (by simp [Pc.opened])
  have scanned : (walking kind w t).Continues (locked.goto t (.scan call 0))
      (locked.goto t (.scan call locked.registry.length)) :=
    walking_to_scan fun position below => by
      rw [List.getElem?_eq_getElem below, zero _ (List.getElem_mem _)]
  have ended : (walking kind w t).Continues (locked.goto t (.scan call locked.registry.length))
      (locked.goto t (.scanned call true)) :=
    walking_of_step (by simp [advance]) (by simp [Pc.opened])
  exact (started.trans scanned).trans ended

/-- A writer that finds a counter that is not zero has to scan again. -/
theorem walking_to_rescan (free : s.registryLock = none) {position : Nat} {counter : BitVec w}
    (zero : ∀ earlier < position, s.registry[earlier]? = some 0)
    (loaded : s.registry[position]? = some counter) (nonzero : counter ≠ 0) :
    (walking kind w t).Continues (s.goto t (.scanLock call))
      ({ s with registryLock := some t }.goto t (.scanned call false)) := by
  let locked : State Thread w := { s with registryLock := some t }
  have started : (walking kind w t).Continues (s.goto t (.scanLock call))
      (locked.goto t (.scan call 0)) :=
    walking_of_step (by simp [advance, free, goto, locked]) (by simp [Pc.opened])
  have scanned : (walking kind w t).Continues (locked.goto t (.scan call 0))
      (locked.goto t (.scan call position)) := walking_to_scan zero
  have ended : (walking kind w t).Continues (locked.goto t (.scan call position))
      (locked.goto t (.scanned call false)) := by
    have same : locked.registry[position]? = some counter := loaded
    refine walking_of_step ?_ (by simp [Pc.opened])
    simp only [advance, goto_pc_self, goto_registry, same, if_neg nonzero, goto_goto]
  exact (started.trans scanned).trans ended

/-- The drop of a `WriteLock` lowers the flag and releases the mutex. -/
theorem walking_to_dropped :
    (walking kind w t).Continues (s.goto t (.lower id))
      ({ s with writing := false, write := none }.goto t .idle) := by
  have lowered : (walking kind w t).Continues (s.goto t (.lower id))
      ({ s with writing := false }.goto t (.unlock id)) :=
    walking_of_step (by simp [advance, goto]) (by simp [Pc.opened])
  refine lowered.trans (walking_of_step ?_ (by simp [Pc.opened]))
  simp [advance, goto]

end State

end DarkStd.Sync
