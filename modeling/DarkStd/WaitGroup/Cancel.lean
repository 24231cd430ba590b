import DarkStd.WaitGroup.Rounds

/-!
# A cancelled wait

A `wait_async` that is dropped where it awaits keeps nothing: the messages it
has received are gone from the channel, and its count of them was a local of
the future. So the run with the cancelled call is the run without it, but for
these messages. A later wait may miss them whenever it comes to need them, also
when handles are cloned and dropped while it already runs.
-/

namespace DarkStd.WaitGroup

open DarkStd.Semantics State

/-- An action of the thread. -/
def Action.By {Thread : Type} (t : Thread) : Action Thread → Prop
  | .add u _ _ | .clone u _ | .wait u _ | .step u | .cancel u => u = t
  | .drop _ => False

instance {Thread : Type} [DecidableEq Thread] (t : Thread) (action : Action Thread) :
    Decidable (action.By t) :=
  match action with
  | .add u _ _ | .clone u _ | .wait u _ | .step u | .cancel u => inferInstanceAs (Decidable (u = t))
  | .drop _ => inferInstanceAs (Decidable False)

/-- `wait` is about to return. -/
def Pc.leaving : Pc → Prop
  | .leave _ _ => True
  | _ => False

namespace State

variable {Thread : Type}

/-- Handles are cloned and dropped beside a call of the thread, which takes no
step. -/
def Beside (t : Thread) (s : State Thread) : Action Thread → Prop
  | .clone u _ => u ≠ t
  | .step u => u ≠ t ∧ (s.pc u).cloning
  | .drop _ => True
  | .add _ _ _ | .wait _ _ | .cancel _ => False

/-- The state with some of the received messages still in the channel. -/
def putBack (s : State Thread) (taken : Nat) : State Thread :=
  { s with queue := s.queue + taken, received := s.received - taken }

section Fields

variable (s : State Thread) (taken : Nat)

@[simp] theorem putBack_total : (s.putBack taken).total = s.total := rfl
@[simp] theorem putBack_queue : (s.putBack taken).queue = s.queue + taken := rfl
@[simp] theorem putBack_handles : (s.putBack taken).handles = s.handles := rfl
@[simp] theorem putBack_created : (s.putBack taken).created = s.created := rfl
@[simp] theorem putBack_calls : (s.putBack taken).calls = s.calls := rfl
@[simp] theorem putBack_pc : (s.putBack taken).pc = s.pc := rfl

end Fields

/-- How many messages a running wait has received. -/
def WaitsWith (handle taken : Nat) : Pc → Prop
  | .load other => other = handle ∧ taken = 0
  | .recv other current => other = handle ∧ current.toNat = taken ∧ taken + 1 < 2 ^ 64
  | .compare other current => other = handle ∧ current.toNat = taken
  | .leave other _ => other = handle
  | _ => False

variable [DecidableEq Thread]

instance : DecidablePred Pc.cloning
  | .idle | .build _ => inferInstanceAs (Decidable True)
  | .fetchOr .. | .store .. => inferInstanceAs (Decidable (_ ∧ _))
  | .load _ | .recv .. | .compare .. | .leave .. => inferInstanceAs (Decidable False)

instance (t : Thread) (s : State Thread) (action : Action Thread) : Decidable (Beside t s action) :=
  match action with
  | .clone u _ => inferInstanceAs (Decidable (u ≠ t))
  | .step u => inferInstanceAs (Decidable (u ≠ t ∧ (s.pc u).cloning))
  | .drop _ => inferInstanceAs (Decidable True)
  | .add _ _ _ | .wait _ _ | .cancel _ => inferInstanceAs (Decidable False)

variable {overflowChecks : Bool} {s next : State Thread} {action : Action Thread}
variable {t : Thread} {handle taken : Nat}

omit [DecidableEq Thread] in
/-- What happens beside a call is no action of its thread. -/
theorem Beside.not_by (beside : Beside t s action) : ¬ action.By t := by
  cases action with
  | clone => exact beside
  | step => exact beside.1
  | drop => exact id
  | add | wait | cancel => exact absurd beside id

/-- It does not matter where the thread of the call is. -/
theorem Beside.goto {pc : Pc} (beside : Beside t s action) :
    Beside t (s.goto t pc) action := by
  cases action with
  | step u =>
      refine ⟨beside.1, ?_⟩
      rw [goto_pc_apply, if_neg beside.1]
      exact beside.2
  | _ => exact beside

/-- A call does not look at the channel. -/
theorem call_putBack {pc : Pc} :
    (s.putBack taken).call t handle pc = (s.call t handle pc).map (·.putBack taken) := by
  by_cases may : s.pc t = .idle ∧ handle ∈ s.handles <;> simp [call, may, putBack, goto]

/-- Clones and drops neither see the messages in the channel nor take any. -/
theorem step_putBack (beside : Beside t s action) :
    (s.putBack taken).step overflowChecks action =
      (s.step overflowChecks action).map (·.putBack taken) := by
  cases action with
  | clone u other => exact call_putBack
  | step u =>
      obtain ⟨-, cloning⟩ := beside
      cases here : s.pc u with
      | idle | build | fetchOr => simp [step, advance, here, putBack, goto, finish]
      | store other v cloning current =>
          simp only [step, advance, putBack_pc, here]
          split
          case isTrue => rfl
          case isFalse => split <;> rfl
      | load | recv | compare | leave =>
          rw [here] at cloning
          cases cloning
  | drop dropped =>
      have same : s.queue + 1 + taken = s.queue + taken + 1 := Nat.add_right_comm ..
      by_cases may : dropped ∈ s.handles ∧ s.Free dropped
      · rw [step, step, if_pos may, if_pos (by exact may)]
        simp [putBack, same]
      · rw [step, step, if_neg may, if_neg (by exact may), Option.map_none]
  | add | wait | cancel => cases beside

/-- Clones and drops go on in the same way wherever the thread of the call is. -/
theorem step_goto (beside : Beside t s action) {pc : Pc} :
    (s.goto t pc).step overflowChecks action =
      (s.step overflowChecks action).map (·.goto t pc) := by
  have different {u : Thread} (other : u ≠ t) : (s.goto t pc).pc u = s.pc u := by
    rw [goto_pc_apply, if_neg other]
  cases action with
  | clone u other =>
      simp only [step, call, different beside, goto_handles]
      split <;> simp [goto, Function.update_comm beside]
  | step u =>
      obtain ⟨other, cloning⟩ := beside
      cases here : s.pc u with
      | idle | build | fetchOr =>
          simp only [step, advance, different other, here]
          simp [goto, finish, Function.update_comm other]
      | store handle v cloning current =>
          simp only [step, advance, different other, here]
          split
          case isTrue => simp [goto, finish, Function.update_comm other]
          case isFalse => split <;> simp [goto, finish, Function.update_comm other]
      | load | recv | compare | leave =>
          rw [here] at cloning
          cases cloning
  | drop dropped =>
      by_cases may : dropped ∈ s.handles ∧ s.Free dropped
      · rw [step, step, if_pos may, if_pos (by exact may)]
        rfl
      · rw [step, step, if_neg may, if_neg (by exact may), Option.map_none]
  | add | wait | cancel => cases beside

/-- Messages that are left in the channel do not disturb a step. -/
theorem Moves.putBack (sound : s.Sound) (enough : taken ≤ s.received)
    (move : Moves overflowChecks s action next) :
    taken ≤ next.received ∧ Moves overflowChecks (s.putBack taken) action (next.putBack taken) := by
  cases move with
  | add idle alive => exact ⟨enough, .add idle alive⟩
  | clone idle alive => exact ⟨enough, .clone idle alive⟩
  | wait idle alive => exact ⟨enough, .wait idle alive⟩
  | fetchOr here => exact ⟨enough, .fetchOr here⟩
  | panic here checked wraps => exact ⟨enough, .panic here checked wraps⟩
  | store here fits => exact ⟨enough, .store here fits⟩
  | storeClone here fits => exact ⟨enough, .storeClone here fits⟩
  | build here => exact ⟨enough, .build here⟩
  | loadZero here zero => exact ⟨enough, .loadZero here zero⟩
  | loadNonzero here nonzero => exact ⟨enough, .loadNonzero here nonzero⟩
  | @receive u other current queue here sent =>
      have more : (s.putBack taken).queue = queue + taken + 1 := by
        rw [putBack_queue, sent]
        exact Nat.add_right_comm ..
      have moved : Moves overflowChecks (s.putBack taken) (.step u) _ := .receive here more
      have same : s.received + 1 - taken = s.received - taken + 1 := Nat.succ_sub enough
      refine ⟨Nat.le_succ_of_le enough, ?_⟩
      simp only [State.putBack, goto, same] at moved ⊢
      exact moved
  | @disconnected u other current here empty senders =>
      have alive := sound.borrowed u other (by rw [here]; rfl)
      exact absurd alive (senders ▸ List.not_mem_nil)
  | enough here reached => exact ⟨enough, .enough here reached⟩
  | more here below => exact ⟨enough, .more here below⟩
  | leave here => exact ⟨enough, .leave here⟩
  | cancel here => exact ⟨enough, .cancel here⟩
  | @drop dropped alive free =>
      have moved : Moves overflowChecks (s.putBack taken) (.drop dropped) _ := .drop alive free
      have same : s.queue + 1 + taken = s.queue + taken + 1 := Nat.add_right_comm ..
      refine ⟨enough, ?_⟩
      simp only [State.putBack, same] at moved ⊢
      exact moved

/-- The end of a call of one thread, and a move of another. -/
theorem finish_goto_comm {u : Thread} (other : u ≠ t) (pc : Pc) :
    (s.goto u pc).finish t handle = (s.finish t handle).goto u pc := by
  simp only [finish, goto, Function.update_comm other]

theorem finish_finish_comm {u : Thread} (other : u ≠ t) (borrowed : Nat) :
    (s.finish u borrowed).finish t handle = (s.finish t handle).finish u borrowed := by
  simp only [finish, goto, Function.update_comm other, List.erase_comm (t, handle)]

theorem finish_call_comm {u : Thread} (other : u ≠ t) (borrowed : Nat) (pc : Pc) :
    ({ s with calls := (u, borrowed) :: s.calls }.goto u pc).finish t handle =
      { s.finish t handle with calls := (u, borrowed) :: (s.finish t handle).calls }.goto u pc := by
  have cons : ((u, borrowed) :: s.calls).erase (t, handle) =
      (u, borrowed) :: s.calls.erase (t, handle) := List.erase_cons_tail (by simp [other])
  simp only [finish, goto, Function.update_comm other, cons]

/-- Without a call of one thread the others can do the same. -/
theorem Moves.without (move : Moves overflowChecks s action next) (other : ¬ action.By t) :
    Moves overflowChecks (s.finish t handle) action (next.finish t handle) := by
  have elsewhere {u : Thread} (other : u ≠ t) : (s.finish t handle).pc u = s.pc u := by
    rw [finish_pc_apply, if_neg other]
  cases move with
  | add idle alive =>
      rw [finish_call_comm other]
      exact .add ((elsewhere other).trans idle) alive
  | clone idle alive =>
      rw [finish_call_comm other]
      exact .clone ((elsewhere other).trans idle) alive
  | wait idle alive =>
      rw [finish_call_comm other]
      exact .wait ((elsewhere other).trans idle) alive
  | fetchOr here =>
      rw [finish_goto_comm other]
      exact .fetchOr ((elsewhere other).trans here)
  | panic here checked wraps =>
      rw [finish_finish_comm other]
      exact .panic ((elsewhere other).trans here) checked wraps
  | store here fits =>
      rw [finish_finish_comm other]
      exact .store ((elsewhere other).trans here) fits
  | storeClone here fits =>
      rw [finish_goto_comm other]
      exact .storeClone ((elsewhere other).trans here) fits
  | build here =>
      rw [finish_finish_comm other]
      exact .build ((elsewhere other).trans here)
  | loadZero here zero =>
      rw [finish_goto_comm other]
      exact .loadZero ((elsewhere other).trans here) zero
  | loadNonzero here nonzero =>
      rw [finish_goto_comm other]
      exact .loadNonzero ((elsewhere other).trans here) nonzero
  | receive here sent =>
      rw [finish_goto_comm other]
      exact .receive ((elsewhere other).trans here) sent
  | disconnected here empty senders =>
      rw [finish_goto_comm other]
      exact .disconnected ((elsewhere other).trans here) empty senders
  | enough here reached =>
      rw [finish_goto_comm other]
      exact .enough ((elsewhere other).trans here) reached
  | more here below =>
      rw [finish_goto_comm other]
      exact .more ((elsewhere other).trans here) below
  | leave here =>
      rw [finish_finish_comm other]
      exact .leave ((elsewhere other).trans here)
  | cancel here =>
      rw [finish_finish_comm other]
      exact .cancel ((elsewhere other).trans here)
  | drop alive free =>
      exact .drop alive fun call member => free call (List.mem_of_mem_erase member)

/-- But for the messages a step of the wait receives, it leaves everything else as
it was; and the wait makes for its return only with as many as `total` says. -/
theorem Moves.waiting (sound : s.Sound) (enough : taken ≤ s.received)
    (waits : WaitsWith handle taken (s.pc t)) (move : Moves overflowChecks s (.step t) next) :
    (s.pc t).leaving ∧ next.pc t = .idle ∨
      ∃ taken', taken' ≤ next.received ∧ WaitsWith handle taken' (next.pc t) ∧
        ((next.pc t).leaving → next.total.toNat ≤ taken') ∧
        ∀ pc, (next.putBack taken').goto t pc = (s.putBack taken).goto t pc := by
  have unmoved (there pc : Pc) :
      ((s.goto t there).putBack taken).goto t pc = (s.putBack taken).goto t pc := by
    simp only [goto, State.putBack, Function.update_idem]
  cases move with
  | fetchOr here | panic here | store here | storeClone here | build here =>
      rw [here] at waits
      cases waits
  | disconnected here empty senders =>
      have alive := sound.borrowed t _ (by rw [here]; rfl)
      exact absurd alive (senders ▸ List.not_mem_nil)
  | leave here => exact .inl ⟨by rw [here]; trivial, by simp⟩
  | loadZero here zero =>
      rw [here] at waits
      refine .inr ⟨taken, enough, by rw [goto_pc_self]; exact waits.1, fun _ => ?_, unmoved _⟩
      rw [goto_total, zero]
      exact Nat.zero_le _
  | loadNonzero here nonzero =>
      rw [here] at waits
      obtain ⟨rfl, rfl⟩ := waits
      refine .inr ⟨0, enough, by rw [goto_pc_self]; exact ⟨rfl, rfl, by decide⟩, ?_, unmoved _⟩
      rw [goto_pc_self]
      exact False.elim
  | @receive _ _ current queue here sent =>
      rw [here] at waits
      obtain ⟨rfl, count, small⟩ := waits
      have more : queue + (taken + 1) = s.queue + taken := by omega
      refine .inr ⟨taken + 1, Nat.succ_le_succ enough, ?_, ?_, fun pc => ?_⟩
      · rw [goto_pc_self]
        refine ⟨rfl, ?_⟩
        rw [BitVec.toNat_add_of_lt (by rw [count]; exact small), count]
        rfl
      · rw [goto_pc_self]
        exact False.elim
      · simp only [goto, State.putBack, Function.update_idem, more, Nat.add_sub_add_right]
  | @enough _ _ current here reached =>
      rw [here] at waits
      obtain ⟨rfl, rfl⟩ := waits
      exact .inr ⟨_, enough, by rw [goto_pc_self]; rfl, fun _ => BitVec.le_def.mp reached,
        unmoved _⟩
  | more here below =>
      rw [here] at waits
      obtain ⟨rfl, count⟩ := waits
      have bound := s.total.isLt
      have less := Nat.lt_of_not_le (mt BitVec.le_def.mpr below)
      refine .inr ⟨taken, enough, by rw [goto_pc_self]; exact ⟨rfl, count, by omega⟩, ?_,
        unmoved _⟩
      rw [goto_pc_self]
      exact False.elim

/-- Where a call was does not matter once it has ended. -/
theorem goto_finish (pc : Pc) : (s.goto t pc).finish t handle = s.finish t handle := by
  simp only [finish, goto, Function.update_idem]

/-- The actions of the others leave a thread where it is. -/
theorem Moves.pc_of_not_by (move : Moves overflowChecks s action next) (other : ¬ action.By t) :
    next.pc t = s.pc t := by
  have different {u : Thread} (other : u ≠ t) : t ≠ u := Ne.symm other
  cases move <;> simp_all [Action.By]

end State

variable {Thread : Type} [DecidableEq Thread]

/-- What may happen while a call of the thread runs: its own steps, and anything
the others do. -/
def pending (overflowChecks : Bool) (t : Thread) : System (State Thread) (Action Thread) :=
  (waitGroup overflowChecks Thread).restrict fun _ action => action.By t → action = .step t

/-- The actions of the others. -/
def others (t : Thread) (actions : List (Action Thread)) : List (Action Thread) :=
  actions.filter fun action => ¬ action.By t

/-- Handles are cloned and dropped beside a call of the thread, which takes no
step. -/
def during (overflowChecks : Bool) (t : Thread) : System (State Thread) (Action Thread) :=
  (waitGroup overflowChecks Thread).restrict (Beside t)

/-- Handles are cloned and dropped beside a call of the thread, which runs. -/
def attended (overflowChecks : Bool) (t : Thread) : System (State Thread) (Action Thread) :=
  (waitGroup overflowChecks Thread).restrict fun s action => action = .step t ∨ Beside t s action

/-- A wait that is called now can return while handles are cloned and dropped as
listed; its own steps come anywhere in between. -/
def ReturnsWithin (overflowChecks : Bool) (t : Thread) (handle : Nat)
    (background : List (Action Thread)) (s : State Thread) : Prop :=
  ∃ called actions last, s.step overflowChecks (.wait t handle) = some called ∧
    (attended overflowChecks t).Steps called actions last ∧
    others t actions <+: background ∧ last.pc t = .idle

/-- If the wait takes no step then after some of the listed clones and drops the
channel holds as many messages as `total` says, and so many to spare. -/
def Enough (overflowChecks : Bool) (t : Thread) (handle : Nat)
    (background : List (Action Thread)) (spare : Nat) (s : State Thread) : Prop :=
  ∃ called before now, s.step overflowChecks (.wait t handle) = some called ∧
    before <+: background ∧ (during overflowChecks t).Steps called before now ∧
    now.total.toNat + spare ≤ now.queue

/-- Two runs from `s` with the same actions of the others and the same clones and
drops after them. In the first the thread calls `wait_async` on the handle, and
the future is dropped where it awaits and has received `taken` messages; in the
second it does nothing. -/
inductive Cancelled (overflowChecks : Bool) (t : Thread) (handle taken : Nat)
    (s last other : State Thread) : Prop where
  | runs {called awaiting cancelled actions later current}
      (call : s.step overflowChecks (.wait t handle) = some called)
      (running : (pending overflowChecks t).Steps called actions awaiting)
      (here : awaiting.pc t = .recv handle current) (count : current.toNat = taken)
      (cancel : awaiting.step overflowChecks (.cancel t) = some cancelled)
      (rest : (cloning overflowChecks Thread).Steps cancelled later last)
      (without : (waitGroup overflowChecks Thread).Steps s (others t actions ++ later) other)

variable {overflowChecks : Bool} {s called awaiting cancelled last other : State Thread}
variable {t : Thread} {handle taken : Nat} {actions later : List (Action Thread)}

/-- While a wait runs, the run without it has the messages the wait has received
still in its channel. -/
theorem steps_without (sound : s.Sound)
    (call : s.step overflowChecks (.wait t handle) = some called)
    (running : (pending overflowChecks t).Steps called actions awaiting) :
    awaiting.Sound ∧ (awaiting.pc t = .idle ∨ ∃ taken, taken ≤ awaiting.received ∧
      WaitsWith handle taken (awaiting.pc t) ∧
      (waitGroup overflowChecks Thread).Steps s (others t actions)
        ((awaiting.putBack taken).finish t handle)) := by
  induction running with
  | refl =>
      have move := moves_of_step call
      refine ⟨sound.preserved move, .inr ⟨0, Nat.zero_le _, ?_, ?_⟩⟩
      · cases move with
        | wait idle alive => rw [goto_pc_self]; exact ⟨rfl, rfl⟩
      · cases move with
        | wait idle alive =>
            have same : Function.update s.pc t .idle = s.pc := by
              rw [← idle, Function.update_eq_self]
            simp only [finish, goto, State.putBack, Function.update_idem, same,
              List.erase_cons_head]
            exact .refl
  | @step actions middle action next _ stepped inductionHypothesis =>
      obtain ⟨sound, idle | ⟨taken, enough, waits, without⟩⟩ := inductionHypothesis
      all_goals
        obtain ⟨own, stepped⟩ := stepped
        have move := moves_of_step stepped
        refine ⟨sound.preserved move, ?_⟩
        rw [others, List.filter_append]
      · left
        by_cases mine : action.By t
        · obtain rfl := own mine
          simp [waitGroup, System.ofFunction, State.step, advance, idle] at stepped
        · rw [move.pc_of_not_by mine, idle]
      · by_cases mine : action.By t
        · obtain rfl := own mine
          rw [List.filter_cons_of_neg (by simpa using mine), List.filter_nil, List.append_nil]
          obtain ⟨-, idle⟩ | ⟨taken', enough', waits', -, same⟩ :=
            move.waiting sound enough waits
          · exact .inl idle
          · have same : (next.putBack taken').finish t handle =
                (middle.putBack taken).finish t handle := by
              rw [← goto_finish .idle, same, goto_finish]
            exact .inr ⟨taken', enough', waits', same ▸ without⟩
        · rw [List.filter_cons_of_pos (by simpa using mine), List.filter_nil]
          obtain ⟨enough', again⟩ := move.putBack sound enough
          have again : Moves overflowChecks ((middle.putBack taken).finish t handle) action
              ((next.putBack taken).finish t handle) := again.without mine
          have moved := step_of_moves again
          exact .inr ⟨taken, enough', by rw [move.pc_of_not_by mine]; exact waits,
            .step without moved⟩

/-- The clones and drops after the cancelled call go on in the same way. -/
theorem steps_putBack (sound : cancelled.Sound) (enough : taken ≤ cancelled.received)
    (rest : (waitGroup overflowChecks Thread).Steps cancelled later last) :
    last.Sound ∧ taken ≤ last.received ∧
      (waitGroup overflowChecks Thread).Steps (cancelled.putBack taken) later
        (last.putBack taken) := by
  induction rest with
  | refl => exact ⟨sound, enough, .refl⟩
  | step _ stepped inductionHypothesis =>
      obtain ⟨sound, enough, steps⟩ := inductionHypothesis
      have move := moves_of_step stepped
      obtain ⟨enough, again⟩ := move.putBack sound enough
      exact ⟨sound.preserved move, enough, .step steps (step_of_moves again)⟩

/-- The two runs end in the same state, but for the messages the cancelled call
has received. -/
theorem Cancelled.other_eq (runs : Cancelled overflowChecks t handle taken s last other)
    (sound : s.Sound) : last.Sound ∧ other.Sound ∧ other = last.putBack taken := by
  obtain @⟨called, awaiting, cancelled, actions, later, current, call, running, here, count, cancel,
    rest, without⟩ := runs
  obtain ⟨awaits, idle | ⟨taken', enough, waits, alone⟩⟩ := steps_without sound call running
  · rw [here] at idle
    cases idle
  · rw [here] at waits
    obtain ⟨-, same, -⟩ := waits
    obtain rfl := same.symm.trans count
    have move := moves_of_step cancel
    have ended := awaits.preserved move
    cases move with
    | cancel here' =>
        cases here.symm.trans here'
        obtain ⟨lastSound, -, same⟩ := steps_putBack ended enough rest.of_restrict
        have other_eq : other = last.putBack _ := without.unique (alone.trans same)
        exact ⟨lastSound, sound.of_continues ⟨_, without⟩, other_eq⟩

/-- What happens beside a call happens as well when its messages are still in the
channel and its thread is somewhere else. -/
theorem State.Beside.again (beside : Beside t s action)
    (stepped : s.step overflowChecks action = some next) {pc : Pc} :
    (during overflowChecks t).Step ((s.putBack taken).goto t pc) action
      ((next.putBack taken).goto t pc) := by
  have again : Beside t (s.putBack taken) action := beside
  have moved : ((s.putBack taken).goto t pc).step overflowChecks action =
      some ((next.putBack taken).goto t pc) := by
    rw [step_goto again, step_putBack beside, stepped]
    rfl
  exact ⟨again.goto, moved⟩

/-- A running wait, and the run in which it has not received yet: either that run
has had enough messages at some point, or it is in the same state but for the
messages received so far. -/
theorem steps_during (sound : s.Sound)
    (call : s.step overflowChecks (.wait t handle) = some called)
    (running : (attended overflowChecks t).Steps called actions awaiting) :
    awaiting.Sound ∧ ((∃ before now, before <+: others t actions ∧
        (during overflowChecks t).Steps called before now ∧ now.total.toNat ≤ now.queue) ∨
      ∃ taken, taken ≤ awaiting.received ∧ WaitsWith handle taken (awaiting.pc t) ∧
        ¬ (awaiting.pc t).leaving ∧ (during overflowChecks t).Steps called (others t actions)
          ((awaiting.putBack taken).goto t (.load handle))) := by
  induction running with
  | refl =>
      have move := moves_of_step call
      refine ⟨sound.preserved move, .inr ⟨0, Nat.zero_le _, ?_⟩⟩
      cases move with
      | wait idle alive =>
          rw [goto_pc_self]
          refine ⟨⟨rfl, rfl⟩, id, ?_⟩
          simp only [State.goto, State.putBack, Function.update_idem]
          exact .refl
  | @step actions middle action next _ stepped inductionHypothesis =>
      obtain ⟨sound, had⟩ := inductionHypothesis
      obtain ⟨allowed, stepped⟩ := stepped
      have move := moves_of_step stepped
      refine ⟨sound.preserved move, ?_⟩
      rw [others, List.filter_append]
      obtain ⟨before, now, starts, steps, enough⟩ | ⟨taken, enough, waits, remains, steps⟩ := had
      · exact .inl ⟨before, now, starts.trans (List.prefix_append ..), steps, enough⟩
      have allowed : action = .step t ∨ Beside t middle action := allowed
      obtain rfl | beside := allowed
      · rw [List.filter_cons_of_neg (by simp [Action.By]), List.filter_nil, List.append_nil]
        obtain ⟨left, -⟩ | ⟨taken', enough', waits', reached, same⟩ :=
          move.waiting sound enough waits
        · exact absurd left remains
        rw [← same] at steps
        by_cases leaving : (next.pc t).leaving
        · refine .inl ⟨_, _, List.prefix_rfl, steps, ?_⟩
          rw [goto_total, goto_queue, putBack_total, putBack_queue]
          exact Nat.le_add_left_of_le (reached leaving)
        · exact .inr ⟨taken', enough', waits', leaving, steps⟩
      · have other := beside.not_by
        rw [List.filter_cons_of_pos (by simpa using other), List.filter_nil]
        obtain ⟨enough', -⟩ := move.putBack sound enough
        rw [move.pc_of_not_by other]
        exact .inr ⟨taken, enough', waits, remains, .step steps (beside.again stepped)⟩

/-- Beside a wait that takes no step nothing happens to it. -/
theorem load_of_during (sound : s.Sound)
    (call : s.step overflowChecks (.wait t handle) = some called)
    (steps : (during overflowChecks t).Steps called actions awaiting) :
    awaiting.Sound ∧ awaiting.pc t = .load handle := by
  have move := moves_of_step call
  have here : called.pc t = .load handle := by
    cases move with
    | wait idle alive => exact goto_pc_self ..
  refine steps.preserves (fun now => now.Sound ∧ now.pc t = .load handle) ?_
    ⟨sound.preserved move, here⟩
  rintro now action next ⟨sound, here⟩ ⟨beside, stepped⟩
  have beside : Beside t now action := beside
  have move := moves_of_step stepped
  exact ⟨sound.preserved move, (move.pc_of_not_by beside.not_by).trans here⟩

/-- All that happens beside a call is done by others. -/
theorem others_eq_self (steps : (during overflowChecks t).Steps s actions last) :
    others t actions = actions := by
  induction steps with
  | refl => rfl
  | @step actions middle action next _ move inductionHypothesis =>
      have beside : Beside t middle action := move.1
      rw [others, List.filter_append, ← others, inductionHypothesis,
        List.filter_cons_of_pos (by simpa using beside.not_by), List.filter_nil]

/-- The steps of a call are nothing others do. -/
theorem others_eq_nil
    (steps : ((waitGroup overflowChecks Thread).restrict fun _ action => action = .step t).Steps
      s actions last) : others t actions = [] := by
  induction steps with
  | refl => rfl
  | step _ move inductionHypothesis =>
      obtain ⟨rfl, -⟩ := move
      rw [others, List.filter_append, ← others, inductionHypothesis]
      simp [Action.By]

/-- A wait can return while handles are cloned and dropped exactly if at some point
there are enough messages for it. -/
theorem returnsWithin_iff {background : List (Action Thread)} (sound : s.Sound) :
    ReturnsWithin overflowChecks t handle background s ↔
      Enough overflowChecks t handle background 0 s := by
  constructor
  · rintro ⟨called, actions, last, call, running, starts, returned⟩
    obtain ⟨-, ⟨before, now, earlier, steps, enough⟩ | ⟨taken, -, waits, -⟩⟩ :=
      steps_during sound call running
    · exact ⟨called, before, now, call, earlier.trans starts, steps, enough⟩
    · rw [returned] at waits
      cases waits
  · rintro ⟨called, before, now, call, starts, steps, enough⟩
    obtain ⟨sound, here⟩ := load_of_during sound call steps
    have alive := sound.borrowed t handle (by rw [here]; rfl)
    obtain ⟨last, ⟨own, returns⟩, -, returned⟩ : ∃ last,
        ((waitGroup overflowChecks Thread).restrict fun _ action => action = .step t).Continues
          now last ∧ Waiting now t handle last ∧ last.pc t = .idle :=
      (Waiting.of_load sound here).returns alive enough
    have waits : (attended overflowChecks t).Steps called before now := by
      refine steps.mono ?_
      rintro _ _ _ ⟨beside, stepped⟩
      exact ⟨.inr beside, stepped⟩
    have runs : (attended overflowChecks t).Steps now own last := by
      refine returns.mono ?_
      rintro _ _ _ ⟨mine, stepped⟩
      exact ⟨.inl mine, stepped⟩
    refine ⟨called, before ++ own, last, call, waits.trans runs, ?_, returned⟩
    rw [others, List.filter_append, ← others, ← others, others_eq_self steps,
      others_eq_nil returns, List.append_nil]
    exact starts

/-- The clones and drops beside a wait are the same whatever else is in the channel. -/
theorem during_putBack_iff :
    (during overflowChecks t).Steps (s.putBack taken) actions last ↔
      ∃ next, (during overflowChecks t).Steps s actions next ∧ next.putBack taken = last := by
  refine System.steps_map_iff (fun s : State Thread => s.putBack taken) fun s action last => ?_
  constructor
  · rintro ⟨beside, stepped⟩
    have beside : Beside t s action := beside
    have stepped : (s.putBack taken).step overflowChecks action = some last := stepped
    rw [step_putBack beside] at stepped
    obtain ⟨next, stepped, same⟩ := Option.map_eq_some_iff.mp stepped
    exact ⟨next, ⟨beside, stepped⟩, same⟩
  · rintro ⟨next, ⟨beside, stepped⟩, rfl⟩
    have stepped : s.step overflowChecks action = some next := stepped
    refine ⟨beside, (step_putBack beside).trans ?_⟩
    rw [stepped]
    rfl

/-- Messages that are still in the channel are messages to spare. -/
theorem enough_putBack_iff {background : List (Action Thread)} {spare : Nat} :
    Enough overflowChecks t handle background (spare + taken) (s.putBack taken) ↔
      Enough overflowChecks t handle background spare s := by
  constructor
  · rintro ⟨_, before, _, call, starts, steps, enough⟩
    obtain ⟨called, entered, rfl⟩ := Option.map_eq_some_iff.mp (call_putBack.symm.trans call)
    obtain ⟨now, within, rfl⟩ := during_putBack_iff.mp steps
    rw [putBack_total, putBack_queue] at enough
    exact ⟨called, before, now, entered, starts, within, by omega⟩
  · rintro ⟨called, before, now, call, starts, steps, enough⟩
    refine ⟨called.putBack taken, before, now.putBack taken,
      call_putBack.trans (Option.map_eq_some_iff.mpr ⟨called, call, rfl⟩), starts,
      during_putBack_iff.mpr ⟨now, steps, rfl⟩, ?_⟩
    rw [putBack_total, putBack_queue]
    omega

/-- Who has messages to spare has enough. -/
theorem Enough.le {background : List (Action Thread)} {spare less : Nat}
    (enough : Enough overflowChecks t handle background spare s) (le : less ≤ spare) :
    Enough overflowChecks t handle background less s := by
  obtain ⟨called, before, now, call, starts, steps, enough⟩ := enough
  exact ⟨called, before, now, call, starts, steps, by omega⟩

/-- A cancelled call leaves the group as it was exactly when it has received
nothing. And whatever clones and drops follow, a later wait on the handle can
return just as if the cancelled call had not been made exactly when the messages
that call has received do not decide: with them there would never be enough, or
at some point there are enough without them. -/
theorem cancelled_wait_harmless_iff {overflowChecks : Bool} {s last other : State Thread}
    {t : Thread} {handle taken : Nat}
    (reachable : (waitGroup overflowChecks Thread).Reachable s)
    (runs : Cancelled overflowChecks t handle taken s last other) :
    (last = other ↔ taken = 0) ∧ ∀ u background,
      (ReturnsWithin overflowChecks u handle background last ↔
        ReturnsWithin overflowChecks u handle background other) ↔
      (¬ Enough overflowChecks u handle background 0 other ∨
        Enough overflowChecks u handle background taken other) := by
  obtain ⟨sound, otherSound, rfl⟩ := runs.other_eq (sound_of_reachable reachable)
  refine ⟨⟨fun same => ?_, fun none => ?_⟩, fun u background => ?_⟩
  · have queue := congrArg State.queue same
    rw [putBack_queue] at queue
    omega
  · rw [none]
    rfl
  · have without : Enough overflowChecks u handle background (0 + taken) (last.putBack taken) ↔
        Enough overflowChecks u handle background 0 last := enough_putBack_iff
    rw [Nat.zero_add] at without
    rw [returnsWithin_iff sound, returnsWithin_iff otherSound, ← without]
    constructor
    · intro same
      by_cases enough : Enough overflowChecks u handle background 0 (last.putBack taken)
      · exact .inr (same.mpr enough)
      · exact .inl enough
    · rintro (never | enough)
      · exact ⟨fun enough => enough.le (Nat.zero_le _), fun enough => absurd enough never⟩
      · exact ⟨fun _ => enough.le (Nat.zero_le _), fun _ => enough⟩

instance (action : Action Thread) : Decidable action.batches :=
  match action with
  | .clone _ _ | .step _ | .drop _ => inferInstanceAs (Decidable True)
  | .add _ _ _ | .wait _ _ | .cancel _ => inferInstanceAs (Decidable False)

/-- Execute the two runs: the state before the call, the point where the call was
when it was cancelled, and the two last states. -/
def replay (overflowChecks : Bool) (t : Thread) (handle : Nat)
    (before actions later : List (Action Thread)) :
    Option (State Thread × Pc × State Thread × State Thread) := do
  let step := State.step overflowChecks
  let s ← System.execute step (.new Thread) before
  let called ← step s (.wait t handle)
  let awaiting ← System.execute
    (System.guarded step fun _ action => action.By t → action = .step t) called actions
  let cancelled ← step awaiting (.cancel t)
  let last ← System.execute (System.guarded step fun _ action => action.batches) cancelled later
  let other ← System.execute step s (others t actions ++ later)
  some (s, awaiting.pc t, last, other)

/-- What `replay` has executed are two such runs. -/
theorem cancelled_of_replay {before : List (Action Thread)} {current : BitVec 64}
    (replayed : replay overflowChecks t handle before actions later =
      some (s, .recv handle current, last, other)) :
    (waitGroup overflowChecks Thread).Reachable s ∧
      Cancelled overflowChecks t handle current.toNat s last other := by
  simp only [replay, Option.bind_eq_bind, Option.bind_eq_some_iff, Option.some_inj,
    Prod.mk.injEq] at replayed
  obtain ⟨_, started, called, call, awaiting, running, cancelled, cancel, _, rest, _, without,
    rfl, here, rfl, rfl⟩ := replayed
  exact ⟨System.reachable_of_execute started,
    .runs call (System.steps_of_execute_guarded running) here rfl cancel
      (System.steps_of_execute_guarded rest) (System.steps_of_execute without)⟩

/-- The state after some clones and drops beside a wait that takes no step. -/
def playBeside (overflowChecks : Bool) (t : Thread) (handle : Nat) (before : List (Action Thread))
    (s : State Thread) : Option (State Thread) := do
  let called ← s.step overflowChecks (.wait t handle)
  System.execute (System.guarded (State.step overflowChecks) (Beside t)) called before

/-- Whether there are enough is found out by playing every start of the list. -/
theorem enough_iff_playBeside {background : List (Action Thread)} {spare : Nat} :
    Enough overflowChecks t handle background spare s ↔ ∃ before ∈ background.inits,
      (playBeside overflowChecks t handle before s).any fun now =>
        decide (now.total.toNat + spare ≤ now.queue) := by
  simp only [List.mem_inits, Option.any_eq_true, playBeside, Option.bind_eq_bind,
    Option.bind_eq_some_iff, decide_eq_true_eq]
  constructor
  · rintro ⟨called, before, now, call, starts, steps, enough⟩
    exact ⟨before, starts, now, ⟨called, call, System.execute_guarded_of_steps steps⟩, enough⟩
  · rintro ⟨before, starts, now, ⟨called, call, executed⟩, enough⟩
    exact ⟨called, before, now, call, starts, System.steps_of_execute_guarded executed, enough⟩

instance {background : List (Action Thread)} {spare : Nat} :
    Decidable (Enough overflowChecks t handle background spare s) :=
  decidable_of_iff' _ enough_iff_playBeside

/-- One clone has overwritten what another one added to `total`. A wait is cancelled
that has received the one message that is not waited for. -/
theorem cancel_after_lost_clone_harmless : ∃ s last other : State (Fin 3),
    Cancelled true 0 0 1 s last other ∧ last ≠ other ∧
      (ReturnsWithin true 0 0 [.drop 2] last ↔ ReturnsWithin true 0 0 [.drop 2] other) := by
  have replayed : ((replay true (0 : Fin 3) 0
      [.clone 1 0, .step 1, .clone 2 0, .step 2, .step 2, .step 2, .clone 2 0, .step 2, .step 2,
        .step 2]
      [.step 0, .drop 1, .step 0, .step 0, .step 1, .step 1] []).any fun runs =>
        decide (runs.2.1 = .recv 0 1 ∧ Enough true 0 0 [.drop 2] 1 runs.2.2.2)) = true := by
    decide +kernel
  obtain ⟨⟨s, pc, last, other⟩, replayed, met⟩ := (Option.any_eq_true _ _).mp replayed
  obtain ⟨rfl, enough⟩ := of_decide_eq_true met
  obtain ⟨reachable, runs⟩ := cancelled_of_replay replayed
  have harmless := cancelled_wait_harmless_iff reachable runs
  have enough : Enough true 0 0 [.drop 2] (1 : BitVec 64).toNat other := enough
  exact ⟨s, last, other, runs, mt harmless.1.mp (by decide), (harmless.2 0 _).mpr (.inr enough)⟩

/-- Two clones; a wait that is cancelled between the two drops has taken one of
the two messages that the next one needs, also if that one is called before the
second drop. -/
theorem late_cancel_hangs : ¬ ∀ (s last other : State (Fin 1)) taken background,
    (waitGroup true (Fin 1)).Reachable s → Cancelled true 0 0 taken s last other →
      (ReturnsWithin true 0 0 background last ↔ ReturnsWithin true 0 0 background other) := by
  intro safe
  have replayed : ((replay true (0 : Fin 1) 0
      [.clone 0 0, .step 0, .step 0, .step 0, .clone 0 0, .step 0, .step 0, .step 0]
      [.step 0, .drop 1, .step 0, .step 0] []).any fun runs =>
        decide (runs.2.1 = .recv 0 1 ∧ Enough true 0 0 [.drop 2] 0 runs.2.2.2 ∧
          ¬ Enough true 0 0 [.drop 2] 0 runs.2.2.1)) = true := by
    decide +kernel
  obtain ⟨⟨s, pc, last, other⟩, replayed, met⟩ := (Option.any_eq_true _ _).mp replayed
  obtain ⟨rfl, enough, never⟩ := of_decide_eq_true met
  obtain ⟨reachable, runs⟩ := cancelled_of_replay replayed
  obtain ⟨sound, otherSound, -⟩ := runs.other_eq (sound_of_reachable reachable)
  have same := safe s last other _ [.drop 2] reachable runs
  have returns := same.mpr ((returnsWithin_iff otherSound).mpr enough)
  exact never ((returnsWithin_iff sound).mp returns)

end DarkStd.WaitGroup
