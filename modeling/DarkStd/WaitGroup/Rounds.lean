import DarkStd.WaitGroup.Batch
import DarkStd.WaitGroup.Waiting

/-!
# Rounds on one group

A round clones handles, drops them, and waits on the handle that is left. The
wait returns if the channel holds as many messages as `total` says. `total`
counts the clones of all rounds, but the messages of a round that was waited
for have left the channel, so the wait of a later round needs messages nobody
is going to send.
-/

namespace DarkStd.WaitGroup

open DarkStd.Semantics State

namespace State

variable {Thread : Type} [DecidableEq Thread]

/-- A call of `wait` that returns, by its own steps only. -/
def WaitRun (overflowChecks : Bool) (t : Thread) (handle : Nat) (s last : State Thread) : Prop :=
  ∃ called, s.step overflowChecks (.wait t handle) = some called ∧
    ((waitGroup overflowChecks Thread).restrict fun _ action => action = .step t).Continues
      called last ∧ last.pc t = .idle

/-- A wait that runs by its own steps only, and how far it has come. -/
structure Waiting (before : State Thread) (t : Thread) (handle : Nat) (s : State Thread) : Prop
    where
  sound : s.Sound
  total : s.total = before.total
  handles : s.handles = before.handles
  created : s.created = before.created
  messages : s.queue + s.received = before.queue + before.received
  others : ∀ u, u ≠ t → s.pc u = before.pc u
  received : s.received = before.received +
    if s.pc t = .idle then before.total.toNat else (s.pc t).taken before.total
  waits : s.pc t = .idle ∨ (s.pc t).Waits handle before.total

variable {overflowChecks : Bool} {before s next last : State Thread} {t : Thread} {handle : Nat}

theorem Waiting.of_called (sound : before.Sound)
    (called : before.step overflowChecks (.wait t handle) = some s) :
    Waiting before t handle s := by
  have preserved := sound.preserved (moves_of_step called)
  cases moves_of_step called with
  | wait =>
      refine ⟨preserved, rfl, rfl, rfl, rfl, ?_, ?_, ?_⟩
      · exact fun u other => by rw [goto_pc_apply, if_neg other]
      · simp
      · simp

omit [DecidableEq Thread] in
/-- A wait that has not begun to receive. -/
theorem Waiting.of_load (sound : s.Sound) (here : s.pc t = .load handle) :
    Waiting s t handle s where
  sound := sound
  total := rfl
  handles := rfl
  created := rfl
  messages := rfl
  others _ _ := rfl
  received := by simp [here]
  waits := .inr (by simp [here])

/-- A step of the wait. -/
theorem Waiting.preserved (waiting : Waiting before t handle s)
    (alive : handle ∈ before.handles) (stepped : s.step overflowChecks (.step t) = some next) :
    Waiting before t handle next ∧ (next.pc t).work before.total < (s.pc t).work before.total := by
  have move := moves_of_step stepped
  rcases waiting.waits with idle | waits
  · simp [State.step, advance, idle] at stepped
  · have held : s.handles ≠ [] := by
      rw [waiting.handles]
      exact List.ne_nil_of_mem alive
    have step := waited (waiting.total ▸ waits) held move
    have busy : s.pc t ≠ .idle := by
      rintro idle
      simp [idle] at waits
    have received := waiting.received
    have moved := step.received
    have goes := step.goes
    have work := step.work_lt
    rw [if_neg busy] at received
    rw [waiting.total] at moved goes work
    exact ⟨{
      sound := waiting.sound.preserved move
      total := step.total.trans waiting.total
      handles := step.handles.trans waiting.handles
      created := step.created.trans waiting.created
      messages := step.messages.trans waiting.messages
      others := fun u other => (step.others u other).trans (waiting.others u other)
      received := by omega
      waits := goes.imp And.left And.left }, work⟩

/-- A wait that returns has received what `total` says. -/
theorem WaitRun.waiting (run : WaitRun overflowChecks t handle s last) (sound : s.Sound) :
    Waiting s t handle last := by
  obtain ⟨called, call, continues, -⟩ := run
  have alive : handle ∈ s.handles := by
    cases moves_of_step call with
    | wait _ alive => exact alive
  refine continues.preserves (Waiting s t handle) ?_ (.of_called sound call)
  rintro _ _ _ waiting ⟨rfl, stepped⟩
  exact (waiting.preserved alive stepped).1

/-- A wait returns by its own steps if the channel held what `total` says. -/
theorem Waiting.returns (start : Waiting before t handle s) (alive : handle ∈ before.handles)
    (enough : before.total.toNat ≤ before.queue) :
    ∃ last, ((waitGroup overflowChecks Thread).restrict fun _ action => action = .step t).Continues
      s last ∧ Waiting before t handle last ∧ last.pc t = .idle := by
  refine System.continues_of_rank Nat.lt_wfRel.wf (fun s' => (s'.pc t).work before.total) ?_ s start
  intro s' waiting busy
  have waits := waiting.waits.resolve_left busy
  have received := waiting.received
  have messages := waiting.messages
  rw [if_neg busy] at received
  have sent (current : BitVec 64) (here : s'.pc t = .recv handle current) : s'.queue ≠ 0 := by
    rw [here] at received waits
    have below := BitVec.lt_def.mp waits.2
    rw [Pc.taken] at received
    omega
  obtain ⟨next, stepped⟩ : ∃ next, s'.step overflowChecks (.step t) = some next :=
    wait_enabled (waiting.total ▸ waits) sent
  have step := waiting.preserved alive stepped
  exact ⟨.step t, next, ⟨rfl, stepped⟩, step.1, step.2⟩

/-- A wait can return by its own steps if the channel holds what `total` says. -/
theorem waitRun_iff (sound : s.Sound) (idle : s.pc t = .idle) (alive : handle ∈ s.handles) :
    (∃ last, WaitRun overflowChecks t handle s last) ↔ s.total.toNat ≤ s.queue := by
  constructor
  · rintro ⟨last, run⟩
    have waiting := run.waiting sound
    obtain ⟨-, -, -, returned⟩ := run
    have received := waiting.received
    have messages := waiting.messages
    rw [if_pos returned] at received
    omega
  · intro enough
    obtain ⟨called, call⟩ : ∃ called, s.step overflowChecks (.wait t handle) = some called :=
      ⟨_, step_of_moves (.wait idle alive)⟩
    obtain ⟨last, continues, -, returned⟩ := (Waiting.of_called sound call).returns alive enough
    exact ⟨last, _, call, continues, returned⟩

theorem Waiting.resting {clones : Nat} (waiting : Waiting s t 0 last) (resting : s.Resting clones)
    (returned : last.pc t = .idle) :
    last.Resting clones ∧ last.received = s.received + clones % 2 ^ 64 := by
  have received := waiting.received
  rw [if_pos returned, resting.total, BitVec.toNat_ofNat] at received
  refine ⟨⟨waiting.sound, fun u => ?_, ?_, ?_, ?_⟩, received⟩
  · by_cases same : u = t
    · rw [same, returned]
    · exact (waiting.others u same).trans (resting.idle u)
  · rw [waiting.handles, resting.handles]
  · rw [waiting.created, resting.created]
  · rw [waiting.total, resting.total]

theorem WaitRun.continues (run : WaitRun overflowChecks t handle s last) :
    ((waitGroup overflowChecks Thread).restrict fun _ action =>
      action = .wait t handle ∨ action = .step t).Continues s last := by
  obtain ⟨called, call, continues, -⟩ := run
  have entered : ((waitGroup overflowChecks Thread).restrict fun _ action =>
      action = .wait t handle ∨ action = .step t).Continues s called := .single ⟨.inl rfl, call⟩
  exact entered.trans (continues.weaken fun _ _ => .inr)

theorem WaitRun.reachable (run : WaitRun overflowChecks t handle s last)
    (reachable : (separate overflowChecks Thread).Reachable s) :
    (separate overflowChecks Thread).Reachable last := by
  refine (run.continues.weaken ?_).reachable reachable
  rintro s action (rfl | rfl) <;> trivial

end State

variable {Thread : Type} [DecidableEq Thread]

/-- The clones of one round are made and dropped, and the original handle is
left. -/
structure Batch (sys : System (State Thread) (Action Thread)) (clones : Nat)
    (s next : State Thread) : Prop where
  continues : sys.Continues s next
  idle : ∀ t, next.pc t = .idle
  handles : next.handles = [0]
  created : next.created = s.created + clones

/-- Rounds that have returned. Handles are cloned and dropped in runs of `sys`. -/
inductive Rounds (sys : System (State Thread) (Action Thread)) (overflowChecks : Bool) :
    List Nat → State Thread → Prop where
  | new : Rounds sys overflowChecks [] (.new Thread)
  | round {done clones s ready t last} (prior : Rounds sys overflowChecks done s)
      (batch : Batch sys clones s ready) (returns : WaitRun overflowChecks t 0 ready last) :
      Rounds sys overflowChecks (done ++ [clones]) last

/-- The call of every round returns, given as many clones a round. -/
def EveryRoundReturns (overflowChecks : Bool) (Thread : Type) [DecidableEq Thread]
    (rounds : List Nat) : Prop :=
  ∀ done clones rest, rounds = done ++ clones :: rest → ∀ s ready : State Thread,
    Rounds (batches overflowChecks Thread) overflowChecks done s →
    Batch (batches overflowChecks Thread) clones s ready →
    ∀ t, ∃ last, WaitRun overflowChecks t 0 ready last

/-- The messages that the waits of the rounds receive, after `made` clones. -/
def demand (made : Nat) : List Nat → Nat
  | [] => 0
  | clones :: rest => (made + clones) % 2 ^ 64 + demand (made + clones) rest

theorem demand_append_singleton (made : Nat) (rounds : List Nat) (clones : Nat) :
    demand made (rounds ++ [clones]) =
      demand made rounds + (made + rounds.sum + clones) % 2 ^ 64 := by
  induction rounds generalizing made with
  | nil => simp [demand]
  | cons first rest inductionHypothesis =>
      rw [List.cons_append, demand, demand, inductionHypothesis, List.sum_cons,
        ← Nat.add_assoc made, Nat.add_assoc (_ % _)]

variable {overflowChecks : Bool} {s ready : State Thread} {rounds : List Nat} {clones : Nat}
variable {t : Thread}

/-- After some rounds `total` counts all their clones, and each wait has received
as many messages as `total` said. -/
theorem Rounds.resting (done : Rounds (batches overflowChecks Thread) overflowChecks rounds s) :
    s.Resting rounds.sum ∧ s.received = demand 0 rounds ∧
      (separate overflowChecks Thread).Reachable s := by
  induction done with
  | new => exact ⟨.new, rfl, .initial rfl⟩
  | @round rounds clones s ready t last prior batch returns inductionHypothesis =>
      obtain ⟨resting, received, reachable⟩ := inductionHypothesis
      obtain ⟨rested, kept⟩ :=
        resting.batch batch.continues batch.idle batch.handles batch.created
      have waiting := returns.waiting rested.sound
      obtain ⟨again, taken⟩ := waiting.resting rested returns.choose_spec.2.2
      refine ⟨?_, ?_, returns.reachable (batch.continues.of_restrict.reachable reachable)⟩
      · rw [List.sum_append, List.sum_singleton]
        exact again
      · rw [taken, kept, received, demand_append_singleton, Nat.zero_add]

/-- What has been received was sent by the clones. -/
theorem Rounds.demand_le (done : Rounds (batches overflowChecks Thread) overflowChecks rounds s) :
    demand 0 rounds ≤ rounds.sum := by
  obtain ⟨resting, received, -⟩ := done.resting
  have messages := resting.sound.messages
  rw [resting.created, resting.handles, received, List.length_singleton] at messages
  omega

/-- The next wait returns if the messages of all rounds are enough. -/
theorem Rounds.returns_iff (done : Rounds (batches overflowChecks Thread) overflowChecks rounds s)
    (batch : Batch (batches overflowChecks Thread) clones s ready) :
    (∃ last, WaitRun overflowChecks t 0 ready last) ↔
      demand 0 (rounds ++ [clones]) ≤ (rounds ++ [clones]).sum := by
  obtain ⟨resting, received, -⟩ := done.resting
  obtain ⟨rested, kept⟩ := resting.batch batch.continues batch.idle batch.handles batch.created
  have messages := rested.sound.messages
  rw [rested.created, rested.handles, kept, received, List.length_singleton] at messages
  rw [waitRun_iff rested.sound (rested.idle t) (by simp [rested.handles]), rested.total,
    BitVec.toNat_ofNat, demand_append_singleton, List.sum_append, List.sum_singleton]
  omega

/-- With overflow checks `total` has counted every clone. -/
theorem Rounds.sum_lt (done : Rounds (batches overflowChecks Thread) overflowChecks rounds s)
    (batch : Batch (batches overflowChecks Thread) clones s ready)
    (checked : overflowChecks = true) :
    (rounds ++ [clones]).sum < 2 ^ 64 := by
  subst checked
  obtain ⟨resting, -, reachable⟩ := done.resting
  have bound := created_le_of_reachable (batch.continues.of_restrict.reachable reachable)
  rw [batch.created, resting.created] at bound
  rw [List.sum_append, List.sum_singleton]
  omega

/-- Rounds whose calls all return can be made. -/
theorem EveryRoundReturns.exists_rounds [Inhabited Thread]
    (returns : EveryRoundReturns overflowChecks Thread rounds) (before : List Nat)
    (starts : before <+: rounds) (fits : overflowChecks = true → before.sum < 2 ^ 64) :
    ∃ s : State Thread, Rounds (batches overflowChecks Thread) overflowChecks before s := by
  induction before using List.reverseRecOn with
  | nil => exact ⟨_, .new⟩
  | append_singleton done clones inductionHypothesis =>
      obtain ⟨rest, rfl⟩ := starts
      rw [List.sum_append, List.sum_singleton] at fits
      obtain ⟨s, rounds⟩ := inductionHypothesis ⟨clones :: rest, by simp⟩ fun checked => by
        have bound := fits checked
        omega
      obtain ⟨resting, -⟩ := rounds.resting
      obtain ⟨ready, continues, rested⟩ := resting.exists_batch default clones fits
      have batch : Batch (batches overflowChecks Thread) clones s ready :=
        ⟨continues, rested.idle, rested.handles, by rw [rested.created, resting.created]; omega⟩
      obtain ⟨last, run⟩ := returns done clones rest (by simp) s ready rounds batch default
      exact ⟨last, .round rounds batch run⟩

/-- The calls of all rounds return when each finds enough messages. -/
theorem everyRoundReturns_iff [Inhabited Thread] :
    EveryRoundReturns overflowChecks Thread rounds ↔ ∀ before, before <+: rounds →
      (overflowChecks = true → before.sum < 2 ^ 64) → demand 0 before ≤ before.sum := by
  constructor
  · intro returns before starts fits
    obtain ⟨s, done⟩ := returns.exists_rounds before starts fits
    exact done.demand_le
  · rintro enough done clones rest rfl s ready rounds batch t
    exact (rounds.returns_iff batch).mpr (enough _ ⟨rest, by simp⟩ (rounds.sum_lt batch))

/-- While `total` does not wrap, only the last of the rounds may have clones. -/
theorem eq_zero_of_demand_eq_zero {made : Nat} (small : made + rounds.sum < 2 ^ 64)
    (none : demand made rounds = 0) : ∀ clones ∈ rounds, clones = 0 := by
  induction rounds generalizing made with
  | nil => simp
  | cons first rest inductionHypothesis =>
      rw [List.sum_cons] at small
      rw [demand, Nat.mod_eq_of_lt (by omega)] at none
      simp only [List.mem_cons, forall_eq_or_imp]
      have small : made + first + rest.sum < 2 ^ 64 := by omega
      exact ⟨by omega, inductionHypothesis small (by omega)⟩

theorem demand_zeros (zeros : ∀ clones ∈ rounds, clones = 0) :
    demand 0 rounds = 0 ∧ rounds.sum = 0 := by
  induction rounds with
  | nil => exact ⟨rfl, rfl⟩
  | cons first rest inductionHypothesis =>
      simp only [List.mem_cons, forall_eq_or_imp] at zeros
      simpa [demand, zeros.1] using inductionHypothesis zeros.2

theorem demand_le_iff (small : rounds.sum < 2 ^ 64) :
    (∀ before, before <+: rounds → demand 0 before ≤ before.sum) ↔
      ∀ clones ∈ rounds.dropLast, clones = 0 := by
  obtain rfl | ⟨init, last, rfl⟩ := rounds.eq_nil_or_concat
  · simp [demand]
  rw [List.concat_eq_append] at small ⊢
  rw [List.dropLast_concat]
  rw [List.sum_append, List.sum_singleton] at small
  constructor
  · intro enough clones member
    have whole := enough _ List.prefix_rfl
    rw [demand_append_singleton, List.sum_append, List.sum_singleton, Nat.zero_add,
      Nat.mod_eq_of_lt small] at whole
    have small : 0 + init.sum < 2 ^ 64 := by omega
    exact eq_zero_of_demand_eq_zero small (by omega) clones member
  · intro zeros before starts
    obtain rfl | shorter := List.prefix_concat_iff.mp starts
    · obtain ⟨none, sum⟩ := demand_zeros zeros
      rw [demand_append_singleton, List.sum_append, none, sum]
      simpa using Nat.mod_le last _
    · obtain ⟨none, sum⟩ := demand_zeros fun clones member => zeros clones (shorter.subset member)
      rw [none, sum]

/-- The calls of all rounds return exactly when the messages suffice for all of
them: below `2 ^ 64` clones, when no round but the last has any. And whatever was
called before and in whatever order, a call on any handle that is left, by any
thread that is in no call, returns exactly when it finds as many messages as
`total` says. -/
theorem every_round_returns_iff (overflowChecks : Bool) (Thread : Type) [DecidableEq Thread]
    [Inhabited Thread] (rounds : List Nat) :
    (EveryRoundReturns overflowChecks Thread rounds ↔ ∀ before, before <+: rounds →
      (overflowChecks = true → before.sum < 2 ^ 64) → demand 0 before ≤ before.sum) ∧
    (rounds.sum < 2 ^ 64 → (EveryRoundReturns overflowChecks Thread rounds ↔
      ∀ clones ∈ rounds.dropLast, clones = 0)) ∧
    ∀ (ready : State Thread) t handle, (waitGroup overflowChecks Thread).Reachable ready →
      ready.pc t = .idle → handle ∈ ready.handles →
      ((∃ last, WaitRun overflowChecks t handle ready last) ↔
        ready.total.toNat ≤ ready.queue) := by
  refine ⟨everyRoundReturns_iff, fun small => ?_, fun ready t handle reachable idle alive => ?_⟩
  · rw [everyRoundReturns_iff, ← demand_le_iff small]
    constructor
    · intro enough before starts
      refine enough before starts fun _ => ?_
      obtain ⟨rest, rfl⟩ := starts
      rw [List.sum_append] at small
      omega
    · exact fun enough before starts _ => enough before starts
  · exact waitRun_iff (sound_of_reachable reachable) idle alive

/-- Two empty rounds, and then one with three clones; and a round whose only clone
is the handle that is left. -/
theorem last_round_returns :
    (EveryRoundReturns true (Fin 1) [0, 0, 3] ∧
      ∃ s : State (Fin 1), Rounds (batches true (Fin 1)) true [0, 0, 3] s) ∧
    ∃ ready last : State (Fin 1), ready.handles = [1] ∧ WaitRun true 0 1 ready last := by
  have returns : EveryRoundReturns true (Fin 1) [0, 0, 3] :=
    ((every_round_returns_iff true (Fin 1) [0, 0, 3]).2.1 (by decide)).mpr (by decide)
  obtain ⟨ready, reachable, met⟩ := System.exists_reachable_of_execute
    (fun s : State (Fin 1) =>
      decide (s.pc 0 = .idle ∧ s.handles = [1] ∧ s.total.toNat ≤ s.queue))
    (show (System.execute (State.step true) (.new (Fin 1))
      [.clone 0 0, .step 0, .step 0, .step 0, .drop 0]).any _ = true by decide)
  obtain ⟨idle, left, enough⟩ := of_decide_eq_true met
  obtain ⟨last, waits⟩ := ((every_round_returns_iff true (Fin 1) []).2.2 ready 0 1 reachable idle
    (by rw [left]; decide)).mpr enough
  exact ⟨⟨returns, returns.exists_rounds _ List.prefix_rfl (by decide)⟩, ready, last, left, waits⟩

/-- After one clone was waited for, neither a second clone nor nothing at all
can be. -/
theorem second_round_may_hang :
    ¬ EveryRoundReturns true (Fin 1) [1, 1] ∧ ¬ EveryRoundReturns true (Fin 1) [1, 0] := by
  constructor
  · intro returns
    have enough := everyRoundReturns_iff.mp returns [1, 1] List.prefix_rfl (by decide)
    exact absurd enough (by decide)
  · intro returns
    have enough := everyRoundReturns_iff.mp returns [1, 0] List.prefix_rfl (by decide)
    exact absurd enough (by decide)

end DarkStd.WaitGroup
