import Mathlib.Algebra.Order.BigOperators.Group.Finset
import Mathlib.Data.Fintype.BigOperators
import DarkStd.WaitGroup.Batch
import DarkStd.WaitGroup.Waiting

/-!
# Many waits on one handle

Handles are cloned, and then a number of threads wait on one of them while the
others are dropped. Each wait returns when it has received as many messages as
`total` says by itself, but a message reaches only one of them.
-/

namespace DarkStd.WaitGroup

open DarkStd.Semantics State

namespace State

variable {count : Nat}

/-- Every thread waits once on the shared handle; the other handles are dropped. -/
@[simp] def Awaits (shared : Nat) (s : State (Fin count)) : Action (Fin count) → Prop
  | .wait t handle => handle = shared ∧ t ∉ s.returned
  | .step _ => True
  | .drop handle => handle ≠ shared
  | .add _ _ _ | .clone _ _ | .cancel _ => False

/-- The messages that the wait of a thread has received. -/
def got (s : State (Fin count)) (total : BitVec 64) (t : Fin count) : Nat :=
  if t ∈ s.returned then total.toNat else (s.pc t).taken total

/-- A bound on the steps that a thread has left. -/
def left (s : State (Fin count)) (total : BitVec 64) (t : Fin count) : Nat :=
  if t ∈ s.returned then 0 else if s.pc t = .idle then 2 * total.toNat + 5
  else (s.pc t).work total

/-- The waits share the messages that have been received. -/
structure Awaiting (before : State (Fin count)) (shared : Nat) (s : State (Fin count)) : Prop where
  sound : s.Sound
  total : s.total = before.total
  created : s.created = before.created
  alive : shared ∈ s.handles
  waits : ∀ t, s.pc t = .idle ∨ (s.pc t).Waits shared before.total ∧ t ∉ s.returned
  received : s.received = ∑ t, s.got before.total t

end State

/-- The waits of `count` threads on the shared handle. -/
def waiters (overflowChecks : Bool) (count shared : Nat) :
    System (State (Fin count)) (Action (Fin count)) :=
  (waitGroup overflowChecks (Fin count)).restrict fun s action => s.Awaits shared action

/-- All clones have been made, in a run of `sys`, and nobody has waited. -/
structure Prepared {Thread : Type} (sys : System (State Thread) (Action Thread))
    (clones shared : Nat) (s : State Thread) : Prop where
  continues : sys.Continues (.new Thread) s
  idle : ∀ t, s.pc t = .idle
  alive : shared ∈ s.handles
  created : s.created = clones + 1

/-- Whatever happens until only the shared handle is left, all waits can then
return. -/
def AllReturn (overflowChecks : Bool) {count : Nat} (shared : Nat) (s : State (Fin count)) :
    Prop :=
  ∀ dropped, (waiters overflowChecks count shared).Continues s dropped →
    dropped.handles = [shared] →
    ∃ last, (waiters overflowChecks count shared).Continues dropped last ∧ ∀ t, t ∈ last.returned

namespace State

variable {count : Nat} {overflowChecks : Bool} {before s next : State (Fin count)}
variable {shared : Nat} {t : Fin count}

theorem got_of_returned {total : BitVec 64} (returned : t ∈ s.returned) :
    s.got total t = total.toNat := if_pos returned

/-- A wait has received no more than `total` says. -/
theorem Awaiting.got_le (awaiting : Awaiting before shared s) (t : Fin count) :
    s.got before.total t ≤ before.total.toNat := by
  unfold got
  split
  case isTrue => exact Nat.le_refl _
  case isFalse =>
    rcases awaiting.waits t with idle | ⟨waits, -⟩
    · simp [idle]
    · cases here : s.pc t <;> simp_all [BitVec.le_def, BitVec.lt_def]
      omega

/-- A wait is called. -/
theorem Awaiting.called (awaiting : Awaiting before shared s)
    (fresh : t ∉ s.returned) (stepped : s.step overflowChecks (.wait t shared) = some next) :
    Awaiting before shared next ∧ next.handles = s.handles ∧
      ∑ u, next.left before.total u < ∑ u, s.left before.total u := by
  have sound := awaiting.sound.preserved (moves_of_step stepped)
  have waits := awaiting.waits
  cases moves_of_step stepped with
  | wait idle alive =>
      refine ⟨⟨sound, awaiting.total, awaiting.created, awaiting.alive, ?_, ?_⟩, rfl, ?_⟩
      · intro u
        by_cases same : u = t <;> simp_all
      · rw [goto_received, awaiting.received]
        refine Finset.sum_congr rfl fun u _ => ?_
        by_cases same : u = t <;> simp_all [got]
      · refine Finset.sum_lt_sum (fun u _ => ?_) ⟨t, Finset.mem_univ t, ?_⟩
        · by_cases same : u = t <;> simp_all [left]
        · simp [left, fresh, idle]

/-- A step of a wait. -/
theorem Awaiting.stepped (awaiting : Awaiting before shared s)
    (stepped : s.step overflowChecks (.step t) = some next) :
    Awaiting before shared next ∧ next.handles = s.handles ∧
      ∑ u, next.left before.total u < ∑ u, s.left before.total u := by
  have move := moves_of_step stepped
  rcases awaiting.waits t with idle | ⟨waits, fresh⟩
  · simp [State.step, advance, idle] at stepped
  have step := waited (awaiting.total ▸ waits) (List.ne_nil_of_mem awaiting.alive) move
  have busy : s.pc t ≠ .idle := by
    intro idle
    simp [idle] at waits
  have goes := step.goes
  have received := step.received
  have work := step.work_lt
  rw [awaiting.total] at goes received work
  have listed (u : Fin count) (other : u ≠ t) : u ∈ next.returned ↔ u ∈ s.returned := by
    rcases goes with ⟨-, returned⟩ | ⟨-, returned⟩ <;> simp [returned, other]
  have gotOthers (u : Fin count) (other : u ≠ t) :
      next.got before.total u = s.got before.total u := by
    simp only [got, listed u other, step.others u other]
  have leftOthers (u : Fin count) (other : u ≠ t) :
      next.left before.total u = s.left before.total u := by
    simp only [left, listed u other, step.others u other]
  have gotSum := System.sum_add_of_others (Finset.mem_univ t) gotOthers
  have leftSum := System.sum_add_of_others (Finset.mem_univ t) leftOthers
  have gotBefore : s.got before.total t = (s.pc t).taken before.total := if_neg fresh
  have leftBefore : s.left before.total t = (s.pc t).work before.total := by
    simp only [left, if_neg fresh, if_neg busy]
  have gotAfter : next.got before.total t =
      if next.pc t = .idle then before.total.toNat else (next.pc t).taken before.total := by
    rcases goes with ⟨idle, returned⟩ | ⟨waits, returned⟩
    · simp [got, returned, idle]
    · have busy : next.pc t ≠ .idle := by
        intro idle
        simp [idle] at waits
      simp only [got, returned, if_neg fresh, if_neg busy]
  have leftAfter : next.left before.total t ≤ (next.pc t).work before.total := by
    rcases goes with ⟨idle, returned⟩ | ⟨waits, returned⟩
    · simp [left, returned]
    · have busy : next.pc t ≠ .idle := by
        intro idle
        simp [idle] at waits
      simp only [left, returned, if_neg fresh, if_neg busy, Nat.le_refl]
  refine ⟨⟨awaiting.sound.preserved move, step.total.trans awaiting.total,
    step.created.trans awaiting.created, step.handles ▸ awaiting.alive, fun u => ?_, ?_⟩,
    step.handles, ?_⟩
  · by_cases same : u = t
    · subst same
      rcases goes with ⟨idle, -⟩ | ⟨waits, returned⟩
      · exact .inl idle
      · exact .inr ⟨waits, returned ▸ fresh⟩
    · rw [step.others u same, listed u same]
      exact awaiting.waits u
  · have old := awaiting.received
    omega
  · omega

/-- A clone is dropped. -/
theorem Awaiting.dropped (awaiting : Awaiting before shared s) {handle : Nat}
    (other : handle ≠ shared) (stepped : s.step overflowChecks (.drop handle) = some next) :
    Awaiting before shared next := by
  have sound := awaiting.sound.preserved (moves_of_step stepped)
  cases moves_of_step stepped with
  | drop alive free =>
      have kept := (List.mem_erase_of_ne other.symm).mpr awaiting.alive
      exact ⟨sound, awaiting.total, awaiting.created, kept, awaiting.waits, awaiting.received⟩

theorem Awaiting.of_continues (awaiting : Awaiting before shared s)
    (continues : (waiters overflowChecks count shared).Continues s next) :
    Awaiting before shared next := by
  refine continues.preserves (Awaiting before shared) ?_ awaiting
  rintro s action next awaiting ⟨allowed, stepped⟩
  cases action with
  | wait t handle =>
      obtain ⟨rfl, fresh⟩ := allowed
      exact (awaiting.called fresh stepped).1
  | step t => exact (awaiting.stepped stepped).1
  | drop handle => exact awaiting.dropped allowed stepped
  | add | clone | cancel => cases allowed

/-- Where only the shared handle is left and there are messages for everybody,
all waits can return. -/
theorem Awaiting.continues (awaiting : Awaiting before shared s) (handles : s.handles = [shared])
    (enough : count * before.total.toNat + 1 ≤ before.created) :
    ∃ last, (waiters overflowChecks count shared).Continues s last ∧ ∀ t, t ∈ last.returned := by
  have returns : ∃ last, (waiters overflowChecks count shared).Continues s last ∧
      (Awaiting before shared last ∧ last.handles = [shared]) ∧ ∀ t, t ∈ last.returned := by
    refine System.continues_of_rank Nat.lt_wfRel.wf (fun s => ∑ t, s.left before.total t) ?_ s
      ⟨awaiting, handles⟩
    rintro s ⟨awaiting, handles⟩ waiting
    obtain ⟨t, fresh⟩ := not_forall.mp waiting
    rcases awaiting.waits t with idle | ⟨waits, -⟩
    · obtain ⟨next, stepped⟩ : ∃ next, s.step overflowChecks (.wait t shared) = some next :=
        ⟨_, step_of_moves (.wait idle awaiting.alive)⟩
      obtain ⟨again, same, less⟩ := awaiting.called fresh stepped
      exact ⟨.wait t shared, next, ⟨⟨rfl, fresh⟩, stepped⟩, ⟨again, same.trans handles⟩, less⟩
    · have sent (current : BitVec 64) (here : s.pc t = .recv shared current) : s.queue ≠ 0 := by
        -- This wait has received less than `total`, and nobody has received more.
        have less : s.got before.total t < before.total.toNat := by
          rw [here] at waits
          simp only [got, if_neg fresh, here]
          exact BitVec.lt_def.mp waits.2
        have sum : ∑ u, s.got before.total u < ∑ _u : Fin count, before.total.toNat :=
          Finset.sum_lt_sum (fun u _ => awaiting.got_le u) ⟨t, Finset.mem_univ t, less⟩
        have messages := awaiting.sound.messages
        rw [handles, List.length_singleton, awaiting.received, awaiting.created] at messages
        rw [Finset.sum_const_nat fun _ _ => rfl, Finset.card_fin] at sum
        omega
      obtain ⟨next, stepped⟩ : ∃ next, s.step overflowChecks (.step t) = some next :=
        wait_enabled (awaiting.total ▸ waits) sent
      obtain ⟨again, same, less⟩ := awaiting.stepped stepped
      exact ⟨.step t, next, ⟨trivial, stepped⟩, ⟨again, same.trans handles⟩, less⟩
  obtain ⟨last, continues, -, returned⟩ := returns
  exact ⟨last, continues, returned⟩

/-- When all waits have returned, each has received what `total` says. -/
theorem Awaiting.enough (awaiting : Awaiting before shared s) (returned : ∀ t, t ∈ s.returned) :
    count * before.total.toNat + 1 ≤ before.created := by
  have messages := awaiting.sound.messages
  have some := List.length_pos_of_mem awaiting.alive
  have received : s.received = count * before.total.toNat := by
    rw [awaiting.received, Finset.sum_const_nat fun t _ => got_of_returned (returned t),
      Finset.card_fin]
  rw [awaiting.created] at messages
  omega

/-- The other handles can be dropped. -/
theorem continues_drops (awaiting : Awaiting before shared s) (idle : ∀ t, s.pc t = .idle) :
    ∃ next, (waiters overflowChecks count shared).Continues s next ∧ next.handles = [shared] := by
  have drops : ∃ next, (waiters overflowChecks count shared).Continues s next ∧
      (Awaiting before shared next ∧ ∀ t, next.pc t = .idle) ∧ next.handles = [shared] := by
    refine System.continues_of_rank Nat.lt_wfRel.wf (fun s => s.handles.length) ?_ s
      ⟨awaiting, idle⟩
    rintro s ⟨awaiting, idle⟩ more
    obtain ⟨other, member, different⟩ : ∃ other ∈ s.handles, other ≠ shared := by
      obtain single | found := (awaiting.sound.handles_nodup.ne_singleton_iff shared).mp more
      · exact absurd awaiting.alive (single ▸ List.not_mem_nil)
      · exact found
    have free : s.Free other := by simp [Free, awaiting.sound.calls_eq_nil idle]
    have stepped : s.step overflowChecks (.drop other) = some _ :=
      step_of_moves (.drop member free)
    have shorter : (s.handles.erase other).length < s.handles.length := by
      rw [List.length_erase_of_mem member]
      exact Nat.pred_lt (Nat.ne_of_gt (List.length_pos_of_mem member))
    exact ⟨.drop other, _, ⟨different, stepped⟩, ⟨awaiting.dropped different stepped, idle⟩,
      shorter⟩
  obtain ⟨next, continues, -, handles⟩ := drops
  exact ⟨next, continues, handles⟩

end State

variable {overflowChecks : Bool} {count clones shared : Nat} {s : State (Fin count)}

/-- Before anybody waits nothing has been received. -/
theorem Prepared.awaiting
    (prepared : Prepared (cloning overflowChecks (Fin count)) clones shared s) :
    Awaiting s shared s := by
  have unwaited : Unwaited (.new (Fin count)) s := by
    refine prepared.continues.preserves (Unwaited (.new (Fin count))) ?_
      State.Resting.new.cloned.toUnwaited
    rintro s action next unwaited ⟨batch, stepped⟩
    exact unwaited.preserved batch (moves_of_step stepped)
  have returned : s.returned = [] := unwaited.returned
  refine ⟨unwaited.sound, rfl, rfl, prepared.alive, fun t => .inl (prepared.idle t), ?_⟩
  have received : s.received = 0 := unwaited.received
  simp [received, got, returned, prepared.idle]

/-- The waits of all threads return if the channel holds enough for all of them. -/
theorem Prepared.allReturn_iff
    (prepared : Prepared (cloning overflowChecks (Fin count)) clones shared s) :
    AllReturn overflowChecks shared s ↔ count * s.total.toNat ≤ clones := by
  have awaiting := prepared.awaiting
  have created := prepared.created
  constructor
  · intro returns
    obtain ⟨dropped, before, handles⟩ := continues_drops awaiting prepared.idle
    obtain ⟨last, after, returned⟩ := returns dropped before handles
    have enough := (awaiting.of_continues (before.trans after)).enough returned
    omega
  · intro enough dropped before handles
    exact (awaiting.of_continues before).continues handles (by omega)

/-- Clones that do not overlap are all counted. -/
theorem Prepared.counted
    (prepared : Prepared (batches overflowChecks (Fin count)) clones shared s) :
    Prepared (cloning overflowChecks (Fin count)) clones shared s ∧
      s.total.toNat = clones % 2 ^ 64 := by
  have cloned := Resting.new.cloned.of_continues prepared.continues
  refine ⟨⟨?_, prepared.idle, prepared.alive, prepared.created⟩, ?_⟩
  · refine prepared.continues.map id fun s action next move => ?_
    have moved : (cloning overflowChecks (Fin count)).Step s action next := ⟨move.1, move.2.2⟩
    exact .single moved
  · rw [cloned.total_of_idle prepared.idle prepared.created, BitVec.toNat_ofNat]

/-- With overflow checks there are no more clones than `total` can count. -/
theorem Prepared.clones_lt
    (prepared : Prepared (batches overflowChecks (Fin count)) clones shared s)
    (checked : overflowChecks = true) : clones < 2 ^ 64 := by
  subst checked
  have reachable := prepared.continues.of_restrict.reachable (.initial rfl)
  have bound := created_le_of_reachable reachable
  rw [prepared.created] at bound
  omega

theorem exists_prepared (t : Fin count) (fits : overflowChecks = true → clones < 2 ^ 64) :
    ∃ s, Prepared (batches overflowChecks (Fin count)) clones 0 s := by
  obtain ⟨s, continues, resting⟩ := Resting.new.exists_batch t clones (by simpa using fits)
  have created : s.created = clones + 1 := by rw [resting.created, Nat.zero_add]
  exact ⟨s, continues, resting.idle, by simp [resting.handles], created⟩

/-- The waits on a handle can all return when there are messages for all of them. -/
theorem allReturn_iff :
    (∀ shared s, Prepared (batches overflowChecks (Fin count)) clones shared s →
      AllReturn overflowChecks shared s) ↔
      ((overflowChecks = true → clones < 2 ^ 64) → count * (clones % 2 ^ 64) ≤ clones) := by
  constructor
  · intro returns fits
    match count with
    | 0 => simp
    | count + 1 =>
        obtain ⟨s, prepared⟩ :
            ∃ s, Prepared (batches overflowChecks (Fin (count + 1))) clones 0 s :=
          exists_prepared 0 fits
        obtain ⟨cloned, total⟩ := prepared.counted
        exact total ▸ cloned.allReturn_iff.mp (returns 0 s prepared)
  · intro enough shared s prepared
    obtain ⟨cloned, total⟩ := prepared.counted
    exact cloned.allReturn_iff.mpr (total ▸ enough prepared.clones_lt)

/-- The waits of any number of threads on one handle can all return, whatever
happens until the clones have been dropped, exactly when each wait can have a
message of each clone: below `2 ^ 64` clones, when there is one wait or no clone.
Also where clones overlap, `total` at the start of the waits decides. -/
theorem all_waiters_return_iff (overflowChecks : Bool) (count clones : Nat) :
    ((∀ shared s, Prepared (batches overflowChecks (Fin count)) clones shared s →
        AllReturn overflowChecks shared s) ↔
      ((overflowChecks = true → clones < 2 ^ 64) → count * (clones % 2 ^ 64) ≤ clones)) ∧
    (clones < 2 ^ 64 → 1 ≤ count →
      ((∀ shared s, Prepared (batches overflowChecks (Fin count)) clones shared s →
        AllReturn overflowChecks shared s) ↔ count = 1 ∨ clones = 0)) ∧
    ∀ shared (s : State (Fin count)),
      Prepared (cloning overflowChecks (Fin count)) clones shared s →
      (AllReturn overflowChecks shared s ↔ count * s.total.toNat ≤ clones) := by
  refine ⟨allReturn_iff, fun small some => ?_, fun shared s prepared => prepared.allReturn_iff⟩
  rw [allReturn_iff, Nat.mod_eq_of_lt small]
  constructor
  · intro enough
    have bound : count * clones ≤ 1 * clones := by simpa using enough fun _ => small
    rcases Nat.eq_zero_or_pos clones with none | positive
    · exact .inr none
    · exact .inl (Nat.le_antisymm (Nat.le_of_mul_le_mul_right bound positive) some)
  · rintro (rfl | rfl) _
    · exact Nat.le_of_eq (Nat.one_mul clones)
    · simp

/-- One wait, for three clones. -/
theorem one_waiter_returns :
    ∃ s, Prepared (batches true (Fin 1)) 3 0 s ∧ AllReturn true 0 s := by
  obtain ⟨s, prepared⟩ : ∃ s, Prepared (batches true (Fin 1)) 3 0 s :=
    exists_prepared 0 (by decide)
  have returns := ((all_waiters_return_iff true 1 3).2.1 (by decide) (by decide)).mpr (.inl rfl)
  exact ⟨s, prepared, returns 0 s prepared⟩

/-- Of two waits for one clone, one gets the message. -/
theorem second_waiter_may_hang :
    ¬ ∀ shared s, Prepared (batches true (Fin 2)) 1 shared s → AllReturn true shared s := by
  intro returns
  have enough := allReturn_iff.mp returns (by decide)
  exact absurd enough (by decide)

end DarkStd.WaitGroup
