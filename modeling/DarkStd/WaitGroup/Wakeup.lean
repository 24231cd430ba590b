import DarkStd.WaitGroup.Additions
import DarkStd.WaitGroup.Release

/-!
# No wake-up is lost

Handles are cloned and dropped while one wait runs, in any order and also at the
same time. Clones that overlap may leave `total` too small, but never too large:
it is at most the number of clones that have been added. So a wait that is at the
empty channel has somebody left to wait for.
-/

namespace DarkStd.WaitGroup

open DarkStd.Semantics

/-- The handle that a running wait was called on. -/
@[grind] def Pc.awaited : Pc → Option Nat
  | .load handle | .recv handle _ | .compare handle _ | .leave handle _ => some handle
  | _ => none

/-- A bound on the steps that a wait has left when nobody sends any more. -/
@[simp] def Pc.stepsLeft (queue : Nat) : Pc → Nat
  | .load _ | .compare _ _ => 2 * queue + 4
  | .recv _ _ => 2 * queue + 3
  | .leave _ _ => 2
  | _ => 0

namespace State

variable {Thread : Type}

/-- Handles are cloned and dropped. One wait runs at a time, and none is called
once messages have been received. -/
def Single (s : State Thread) : Action Thread → Prop
  | .add _ _ _ => False
  | .wait _ _ => s.received = 0 ∧ ∀ u, (s.pc u).awaited = none
  | .clone _ _ | .step _ | .cancel _ | .drop _ => True

instance {threads : Nat} (s : State (Fin threads)) (action : Action (Fin threads)) :
    Decidable (s.Single action) :=
  match action with
  | .add .. => .isFalse id
  | .wait .. => inferInstanceAs (Decidable (s.received = 0 ∧ ∀ u, (s.pc u).awaited = none))
  | .clone .. | .step .. | .cancel .. | .drop .. => .isTrue trivial

/-- There is no more in `total`, and in what a clone has read of it, than the
clones that have been added. -/
structure Capped (s : State Thread) : Prop where
  total_le : s.total.toNat ≤ s.added
  fetchOr_one : ∀ t handle v cloning, s.pc t = .fetchOr handle v cloning →
    cloning = true ∧ v = 1
  store_one : ∀ t handle v cloning current, s.pc t = .store handle v cloning current →
    cloning = true ∧ v = 1 ∧ current.toNat ≤ s.added
  built : ∃ building : List Thread, building.Nodup ∧
    (∀ t ∈ building, ∃ handle, s.pc t = .build handle) ∧
    s.added + 1 ≤ s.created + building.length

/-- The messages received are those of the one wait that runs, and when it last
compared them with `total` there were not enough. -/
structure Followed (s : State Thread) : Prop where
  awaited_unique : ∀ t u, (s.pc t).awaited ≠ none → (s.pc u).awaited ≠ none → t = u
  load_eq : ∀ t handle, s.pc t = .load handle → s.received = 0
  recv_eq : ∀ t handle current, s.pc t = .recv handle current →
    current.toNat = s.received ∧ current.toNat < s.added ∧ current.toNat + 1 < 2 ^ 64
  compare_eq : ∀ t handle current, s.pc t = .compare handle current →
    current.toNat = s.received

/-- There is another handle of the group, or a clone that is about to be one. -/
def Expects (s : State Thread) (handle : Nat) : Prop :=
  (∃ other ∈ s.handles, other ≠ handle) ∨ ∃ u borrowed, s.pc u = .build borrowed

theorem Capped.new : (State.new Thread).Capped where
  total_le := by simp [State.new]
  fetchOr_one := by simp [State.new]
  store_one := by simp [State.new]
  built := ⟨[], by simp [State.new]⟩

theorem Followed.new : (State.new Thread).Followed where
  awaited_unique := by simp [State.new, Pc.awaited]
  load_eq := by simp [State.new]
  recv_eq := by simp [State.new]
  compare_eq := by simp [State.new]

variable [DecidableEq Thread]
variable {overflowChecks : Bool} {s next : State Thread} {action : Action Thread}
variable {t : Thread} {handle : Nat}

/-- A clone that is stored is one more, also where it wraps. -/
theorem toNat_add_one_le (current : BitVec 64) : (current + 1).toNat ≤ current.toNat + 1 := by
  rw [BitVec.toNat_add]
  exact Nat.mod_le _ _

namespace Capped

variable (capped : s.Capped)
include capped

theorem total_le_preserved (move : Moves overflowChecks s action next) :
    next.total.toNat ≤ next.added := by
  have old := capped.total_le
  cases move with
  | @store u other v current here =>
      obtain ⟨cloning, -⟩ := capped.store_one u other v false current here
      cases cloning
  | @storeClone u other v current here =>
      obtain ⟨-, rfl, read⟩ := capped.store_one u other v true current here
      exact (toNat_add_one_le current).trans (Nat.add_le_add_right read 1)
  | _ => exact old

theorem store_one_preserved (move : Moves overflowChecks s action next) (u : Thread) (other : Nat)
    (v : BitVec 64) (cloning : Bool) (current : BitVec 64)
    (here : next.pc u = .store other v cloning current) :
    cloning = true ∧ v = 1 ∧ current.toNat ≤ next.added := by
  have old := capped.store_one u other v cloning current
  have fetched := capped.fetchOr_one u other v cloning
  have total := capped.total_le
  cases move <;> grind -ring -linarith

theorem built_preserved (move : Moves overflowChecks s action next) :
    ∃ building : List Thread, building.Nodup ∧
      (∀ u ∈ building, ∃ other, next.pc u = .build other) ∧
      next.added + 1 ≤ next.created + building.length := by
  obtain ⟨building, nodup, built, bound⟩ := capped.built
  cases move with
  | @store u other v current here =>
      obtain ⟨cloning, -⟩ := capped.store_one u other v false current here
      cases cloning
  | @storeClone u other v current here =>
      obtain ⟨-, rfl, -⟩ := capped.store_one u other v true current here
      have fresh : u ∉ building := by
        intro member
        obtain ⟨_, building⟩ := built u member
        cases here.symm.trans building
      refine ⟨u :: building, List.nodup_cons.mpr ⟨fresh, nodup⟩, fun v member => ?_, ?_⟩
      · rcases List.mem_cons.mp member with rfl | member
        · exact ⟨other, goto_pc_self ..⟩
        · obtain ⟨borrowed, building⟩ := built v member
          exact ⟨borrowed, by grind⟩
      · have one : (1 : BitVec 64).toNat = 1 := rfl
        simp only [goto_added, goto_created, List.length_cons, one]
        omega
  | @build u other here =>
      have length : building.length ≤ (building.erase u).length + 1 := by
        rw [List.length_erase]
        split <;> omega
      refine ⟨building.erase u, nodup.erase u, fun v member => ?_, ?_⟩
      · obtain ⟨different, member⟩ := (List.Nodup.mem_erase_iff nodup).mp member
        simpa [different] using built v member
      · simp only [finish_added, finish_created]
        omega
  | _ =>
      refine ⟨building, nodup, fun v member => ?_, bound⟩
      obtain ⟨borrowed, building⟩ := built v member
      exact ⟨borrowed, by grind -ring -linarith⟩

theorem preserved (move : Moves overflowChecks s action next) (single : s.Single action) :
    next.Capped where
  total_le := capped.total_le_preserved move
  fetchOr_one := by
    have old := capped.fetchOr_one
    cases move with
    | add => cases single
    | _ => grind -ring -linarith
  store_one := capped.store_one_preserved move
  built := capped.built_preserved move

end Capped

namespace Followed

variable (followed : s.Followed)
include followed

theorem awaited_unique_preserved (move : Moves overflowChecks s action next)
    (single : s.Single action) (u v : Thread) (left : (next.pc u).awaited ≠ none)
    (right : (next.pc v).awaited ≠ none) : u = v := by
  have old := followed.awaited_unique u v
  cases move with
  | wait =>
      have none : ∀ u, (s.pc u).awaited = none := single.2
      grind -ring -linarith
  | _ => grind -ring -linarith

theorem recv_eq_preserved (move : Moves overflowChecks s action next) (capped : s.Capped)
    (u : Thread) (other : Nat) (current : BitVec 64) (here : next.pc u = .recv other current) :
    current.toNat = next.received ∧ current.toNat < next.added ∧
      current.toNat + 1 < 2 ^ 64 := by
  have old := followed.recv_eq u other current
  have added := move.added_le
  have total := capped.total_le
  cases move with
  | @receive v handle before queue here' sent =>
      have alone := followed.awaited_unique u v
      grind -ring -linarith
  | @loadNonzero v handle here' nonzero =>
      have none := followed.load_eq v handle here'
      have some : 0 < s.total.toNat :=
        Nat.pos_of_ne_zero fun zero => nonzero (BitVec.eq_of_toNat_eq zero)
      grind -ring -linarith
  | @more v handle before here' below =>
      have compared := followed.compare_eq v handle before here'
      have bound := s.total.isLt
      rw [BitVec.le_def, Nat.not_le] at below
      grind -ring -linarith
  | _ => grind -ring -linarith

theorem compare_eq_preserved (move : Moves overflowChecks s action next)
    (u : Thread) (other : Nat) (current : BitVec 64) (here : next.pc u = .compare other current) :
    current.toNat = next.received := by
  have old := followed.compare_eq u other current
  cases move with
  | @receive v handle before queue here' sent =>
      obtain ⟨equal, -, fits⟩ := followed.recv_eq v handle before here'
      have grows : (before + 1).toNat = before.toNat + 1 := BitVec.toNat_add_of_lt fits
      have alone := followed.awaited_unique u v
      grind -ring -linarith
  | _ => grind -ring -linarith

theorem preserved (move : Moves overflowChecks s action next) (capped : s.Capped)
    (single : s.Single action) : next.Followed where
  awaited_unique := followed.awaited_unique_preserved move single
  load_eq := by
    have old := followed.load_eq
    have alone := followed.awaited_unique
    cases move with
    | wait =>
        have none : s.received = 0 := single.1
        grind -ring -linarith
    | _ => grind -ring -linarith
  recv_eq := followed.recv_eq_preserved move capped
  compare_eq := followed.compare_eq_preserved move

end Followed

/-- The runs in which handles are cloned and dropped and one wait receives. -/
def single (overflowChecks : Bool) (Thread : Type) [DecidableEq Thread] :
    System (State Thread) (Action Thread) :=
  (waitGroup overflowChecks Thread).restrict Single

/-- Of these, the runs in which clones neither overlap nor wrap. -/
def singleFitting (overflowChecks : Bool) (Thread : Type) [DecidableEq Thread] :
    System (State Thread) (Action Thread) :=
  (waitGroup overflowChecks Thread).restrict fun s action =>
    s.Single action ∧ s.Alone action ∧ s.Fits overflowChecks action

theorem followed_of_reachable (reachable : (single overflowChecks Thread).Reachable s) :
    s.Sound ∧ s.Capped ∧ s.Followed := by
  refine reachable.invariant (fun s => s.Sound ∧ s.Capped ∧ s.Followed) ?_ ?_
  · rintro _ rfl
    exact ⟨.new, .new, .new⟩
  · rintro s action next - ⟨sound, capped, followed⟩ ⟨alone, stepped⟩
    have move := moves_of_step stepped
    exact ⟨sound.preserved move, capped.preserved move alone,
      followed.preserved move capped alone⟩

/-- A wait stops only at an empty channel: the channel of a handle that is
borrowed has a sender. -/
theorem empty_of_blocked (sound : s.Sound) (awaits : (s.pc t).awaited = some handle)
    (blocked : s.advance overflowChecks t = none) :
    (∃ current, s.pc t = .recv handle current) ∧ s.queue = 0 := by
  have alive : handle ∈ s.handles :=
    sound.borrowed t handle (by cases here : s.pc t <;> simp_all [Pc.awaited, Pc.handle])
  unfold advance at blocked
  cases here : s.pc t with
  | recv other current =>
      obtain rfl : other = handle := by simpa [here, Pc.awaited] using awaits
      cases sent : s.queue with
      | zero => exact ⟨⟨current, rfl⟩, rfl⟩
      | succ queue => simp [here, sent] at blocked
  | idle | fetchOr | store | build => simp [here, Pc.awaited] at awaits
  | load | compare | leave => simp [here] at blocked

omit [DecidableEq Thread] in
/-- At the empty channel there is a handle to wait for, or one is being made. -/
theorem Followed.waits_for (followed : s.Followed) (capped : s.Capped) (sound : s.Sound)
    {current : BitVec 64} (here : s.pc t = .recv handle current) (empty : s.queue = 0) :
    s.Expects handle := by
  obtain ⟨received, below, -⟩ := followed.recv_eq t handle current here
  obtain ⟨building, -, built, bound⟩ := capped.built
  cases building with
  | cons u rest => exact .inr ⟨u, built u List.mem_cons_self⟩
  | nil =>
      left
      by_contra only
      push Not at only
      have alone : s.handles.length ≤ 1 := by
        have within : s.handles ⊆ [handle] := fun other member =>
          List.mem_singleton.mpr (only other member)
        exact (sound.handles_nodup.subperm within).length_le
      have messages := sound.messages
      rw [List.length_nil] at bound
      omega

/-- The steps of one thread. -/
def onlySteps (overflowChecks : Bool) (t : Thread) : System (State Thread) (Action Thread) :=
  (single overflowChecks Thread).restrict fun _ action => action = .step t

/-- The steps of a wait make no handle and drop none. -/
theorem Moves.expects_iff (move : Moves overflowChecks s (.step t) next)
    (awaits : (s.pc t).awaited ≠ none) (handle : Nat) :
    next.Expects handle ↔ s.Expects handle := by
  have handles : next.handles = s.handles := by
    cases move <;> simp_all [Pc.awaited]
  have built (u : Thread) (borrowed : Nat) :
      next.pc u = .build borrowed ↔ s.pc u = .build borrowed := by
    cases move <;> grind -ring -linarith
  simp only [Expects, handles, built]

/-- A wait that nobody is expected for goes on by itself until it returns. -/
structure Finishing (before : State Thread) (t : Thread) (handle : Nat) (s : State Thread) :
    Prop where
  sound : s.Sound
  capped : s.Capped
  followed : s.Followed
  last : ¬ s.Expects handle
  running : (s.pc t).awaited = some handle ∧ s.returned = before.returned ∨
    s.pc t = .idle ∧ s.returned = t :: before.returned

theorem Finishing.advances {before : State Thread} (finishing : Finishing before t handle s)
    (busy : s.pc t ≠ .idle) :
    ∃ next, s.step overflowChecks (.step t) = some next ∧ Finishing before t handle next ∧
      (next.pc t).stepsLeft next.queue < (s.pc t).stepsLeft s.queue := by
  obtain ⟨sound, capped, followed, last, running⟩ := finishing
  obtain ⟨awaits, returned⟩ := running.resolve_right fun done => busy done.1
  obtain ⟨next, stepped⟩ : ∃ next, s.step overflowChecks (.step t) = some next := by
    refine Option.ne_none_iff_exists'.mp fun blocked => ?_
    obtain ⟨⟨current, here⟩, empty⟩ := empty_of_blocked sound awaits blocked
    exact last (followed.waits_for capped sound here empty)
  have move := moves_of_step stepped
  have goes : (next.pc t).awaited = some handle ∧ next.returned = before.returned ∨
      next.pc t = .idle ∧ next.returned = t :: before.returned := by
    cases move <;> simp_all [Pc.awaited]
  have less : (next.pc t).stepsLeft next.queue < (s.pc t).stepsLeft s.queue := by
    cases move with
    | receive here sent =>
        simp only [goto_pc_self, goto_queue, here, sent, Pc.stepsLeft]
        omega
    | _ => simp_all [Pc.awaited]
  have still : ¬ next.Expects handle := by rwa [move.expects_iff (by simp [awaits])]
  exact ⟨next, stepped, ⟨sound.preserved move, capped.preserved move trivial,
    followed.preserved move capped trivial, still, goes⟩, less⟩

/-- On its last handle a wait returns by its own steps. -/
theorem returns_of_last (sound : s.Sound) (capped : s.Capped) (followed : s.Followed)
    (awaits : (s.pc t).awaited = some handle) (last : ¬ s.Expects handle) :
    ∃ next, (onlySteps overflowChecks t).Continues s next ∧ next.pc t = .idle ∧
      next.returned = t :: s.returned := by
  have start : Finishing s t handle s := ⟨sound, capped, followed, last, .inl ⟨awaits, rfl⟩⟩
  have closer (now : State Thread) (finishing : Finishing s t handle now)
      (busy : ¬ now.pc t = .idle) : ∃ action next,
      (onlySteps overflowChecks t).Step now action next ∧ Finishing s t handle next ∧
        (next.pc t).stepsLeft next.queue < (now.pc t).stepsLeft now.queue := by
    obtain ⟨next, stepped, after, less⟩ := finishing.advances busy
    exact ⟨.step t, next, ⟨rfl, trivial, stepped⟩, after, less⟩
  obtain ⟨next, continues, finishing, idle⟩ :=
    System.continues_of_rank Nat.lt_wfRel.wf
      (fun now : State Thread => (now.pc t).stepsLeft now.queue) closer s start
  rcases finishing.running with ⟨running, -⟩ | ⟨-, returned⟩
  · simp [idle, Pc.awaited] at running
  · exact ⟨next, continues, idle, returned⟩

omit [DecidableEq Thread] in
/-- Without overlapping clones, a wait has not enough while somebody is expected. -/
theorem Counted.received_lt (counted : s.Counted) (sound : s.Sound) (alive : handle ∈ s.handles)
    (expects : s.Expects handle) : s.received < s.total.toNat := by
  have messages := sound.messages
  have below := counted.created_le
  have some := List.length_pos_of_mem alive
  rcases expects with ⟨other, live, different⟩ | ⟨u, borrowed, built⟩
  · by_contra enough
    have only := sound.handles_eq alive (by omega)
    rw [only, List.mem_singleton] at live
    exact different live
  · have more := counted.building_le u borrowed built
    omega

/-- While somebody is expected, a wait does not leave its loop. -/
structure Kept (t : Thread) (handle : Nat) (s : State Thread) : Prop where
  sound : s.Sound
  counted : s.Counted
  expects : s.Expects handle
  awaits : (s.pc t).awaited = some handle
  inside : ∀ seen, s.pc t ≠ .leave handle seen

theorem Kept.preserved (kept : Kept t handle s) (move : Moves overflowChecks s (.step t) next) :
    Kept t handle next := by
  obtain ⟨sound, counted, expects, awaits, inside⟩ := kept
  have alive : handle ∈ s.handles :=
    sound.borrowed t handle (by cases here : s.pc t <;> simp_all [Pc.awaited, Pc.handle])
  have more := counted.received_lt sound alive expects
  have fits : s.Fits overflowChecks (.step t) := by
    unfold Fits
    cases here : s.pc t <;> simp_all [Pc.awaited, Pc.Fits]
  have stays : (next.pc t).awaited = some handle ∧ ∀ seen, next.pc t ≠ .leave handle seen := by
    cases move with
    | loadZero here zero => simp [zero] at more
    | disconnected here empty senders => simp [senders] at alive
    | enough here reached =>
        have counted := counted.compare_le _ _ _ here
        have reached := BitVec.le_def.mp reached
        omega
    | _ => simp_all [Pc.awaited]
  exact ⟨sound.preserved move, counted.preserved move sound trivial fits,
    (move.expects_iff (by simp [awaits]) handle).mpr expects, stays.1, stays.2⟩

end State

open State

/-- No wake-up is lost, however clones and drops interleave, and also where
clones overlap. A wait stops only at an empty channel, and then there is another
handle whose drop will send, or a clone is about to be one. Once neither is there
the wait returns by its own steps. -/
theorem no_wakeup_lost (overflowChecks : Bool) {Thread : Type} [DecidableEq Thread]
    {s : State Thread} (reachable : (single overflowChecks Thread).Reachable s) {t : Thread}
    {handle : Nat} (awaits : (s.pc t).awaited = some handle) :
    (s.advance overflowChecks t = none → s.queue = 0 ∧ s.Expects handle) ∧
    (¬ s.Expects handle → ∃ last, (onlySteps overflowChecks t).Continues s last ∧
      last.pc t = .idle ∧ last.returned = t :: s.returned) := by
  obtain ⟨sound, capped, followed⟩ := followed_of_reachable reachable
  refine ⟨fun blocked => ?_, returns_of_last sound capped followed awaits⟩
  obtain ⟨⟨current, here⟩, empty⟩ := empty_of_blocked sound awaits blocked
  exact ⟨empty, followed.waits_for capped sound here empty⟩

/-- Two clones that overlap, of which one has returned and the other has still to make
its handle, and a wait that was called in between and waits at an empty channel. -/
theorem wait_sees_overlapping_clones : ∃ s : State (Fin 3), s.total = 1 ∧
    s.advance true 2 = none ∧ s.queue = 0 ∧ s.Expects 0 := by
  obtain ⟨s, reachable, met⟩ := System.exists_reachable_of_execute_guarded
    (fun s : State (Fin 3) => decide (s.total = 1 ∧ (s.pc 2).awaited = some 0) &&
      (s.advance true 2).isNone)
    (show (System.execute (System.guarded (State.step true) Single) (.new (Fin 3))
      [.clone 0 0, .clone 1 0, .step 0, .step 1, .step 0, .step 0, .wait 2 0, .step 2,
        .step 1]).any _ = true by decide +kernel)
  obtain ⟨met, blocked⟩ := Bool.and_eq_true_iff.mp met
  obtain ⟨total, awaits⟩ := of_decide_eq_true met
  have blocked := Option.isNone_iff_eq_none.mp blocked
  exact ⟨s, total, blocked, (no_wakeup_lost true reachable awaits).1 blocked⟩

/-- Where no two clones overlap and `total` does not wrap, this is exact: a wait
that has not left its loop can return by its own steps if and only if its handle
is the only one and no clone is about to be one. -/
theorem wait_returns_iff_last (overflowChecks : Bool) {Thread : Type} [DecidableEq Thread]
    {s : State Thread}
    (reachable : (singleFitting overflowChecks Thread).Reachable s) {t : Thread} {handle : Nat}
    (awaits : (s.pc t).awaited = some handle)
    (inside : ∀ seen, s.pc t ≠ .leave handle seen) :
    (∃ last, (onlySteps overflowChecks t).Continues s last ∧ last.pc t = .idle) ↔
      ¬ s.Expects handle := by
  have counted : s.Counted := by
    have fits : (fitting overflowChecks Thread).Reachable s := by
      refine reachable.mono ?_ ?_
      · exact fun _ start => start
      · rintro s action next ⟨⟨-, separate⟩, stepped⟩
        exact ⟨separate, stepped⟩
    exact counted_of_reachable fits
  have alone : (single overflowChecks Thread).Reachable s := by
    refine reachable.mono ?_ ?_
    · exact fun _ start => start
    · rintro s action next ⟨⟨single, -⟩, stepped⟩
      exact ⟨single, stepped⟩
  obtain ⟨sound, capped, followed⟩ := followed_of_reachable alone
  constructor
  · rintro ⟨last, continues, idle⟩ expects
    have kept : Kept t handle last := by
      refine continues.preserves (Kept t handle) ?_ ⟨sound, counted, expects, awaits, inside⟩
      rintro s action next kept ⟨rfl, -, stepped⟩
      exact kept.preserved (moves_of_step stepped)
    have awaits := kept.awaits
    simp [idle, Pc.awaited] at awaits
  · intro last
    obtain ⟨next, continues, idle, -⟩ := returns_of_last sound capped followed awaits last
    exact ⟨next, continues, idle⟩

/-- One clone, dropped while the wait runs. -/
theorem wait_returns_after_drop : ∃ s : State (Fin 2), s.pc 1 = .recv 0 0 ∧
    ((∃ last, (onlySteps true (1 : Fin 2)).Continues s last ∧ last.pc 1 = .idle) ↔
      ¬ s.Expects 0) := by
  have run : System.execute
      (System.guarded (State.step true) fun s action =>
        s.Single action ∧ s.Alone action ∧ s.Fits true action)
      (.new (Fin 2)) [.clone 0 0, .step 0, .step 0, .step 0, .wait 1 0, .step 1, .drop 1] =
      some _ := rfl
  have reachable := System.reachable_of_execute_guarded run
  refine ⟨_, rfl, wait_returns_iff_last true reachable rfl ?_⟩
  intro seen left
  cases left

end DarkStd.WaitGroup
