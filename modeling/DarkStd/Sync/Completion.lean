import DarkStd.Sync.Progress

/-!
# Comparisons that can all return

As long as the vectors do not wait for each other in a circle, the calls that
have been started can be scheduled to their ends. Comparisons come first, as far
as they find the flags down, and readers in the middle of a back-off; then, of
the vectors whose flags are up, one that no waiting comparison has a section of
lets its writer through. A writer raises its flag when no comparison is left.
-/

namespace DarkStd.Sync

open DarkStd.Semantics

namespace Comparison

variable {Index V : Type} {contents : Index → List V}

theorem exists_visit_of_lengths (eq : V → V → Bool) (contents : Index → List V)
    (self other : Index) (left right : Nat) (length : Option Nat) :
    ∃ next, (lengths self other left right length).visit eq contents = some next := by
  cases length with
  | none => exact ⟨_, rfl⟩
  | some length =>
      simp only [visit]
      split <;> exact ⟨_, rfl⟩

/-- A comparison does not read past the end of a slice. -/
theorem Agrees.exists_visit {eq : V → V → Bool} {self other : Index}
    {left right length next : Nat} {element : Option V}
    (agrees : (elements self other left right length next element).Agrees eq contents) :
    ∃ after, (elements self other left right length next element).visit eq contents =
      some after := by
  obtain ⟨mine, its, loaded, -⟩ := agrees
  cases element with
  | none =>
      simp only [visit]
      split
      case isTrue below =>
        rw [List.getElem?_eq_getElem (mine ▸ below)]
        exact ⟨_, rfl⟩
      case isFalse => exact ⟨_, rfl⟩
  | some v =>
      obtain ⟨below, -⟩ := List.getElem?_eq_some_iff.mp (loaded v rfl)
      simp only [visit]
      rw [List.getElem?_eq_getElem (by omega)]
      exact ⟨_, rfl⟩

end Comparison

namespace State

variable {Thread : Type} [DecidableEq Thread] {w : Nat} {kind : Kind}
variable {s next : State Thread w} {action : Action Thread} {t : Thread}

/-- An action of a reader at the border of a section. -/
def Reads : Action Thread → Prop
  | .read .. | .leaveRead .. | .dropRead .. => True
  | .write .. | .step _ | .leaveWrite .. | .dropWrite .. | .send .. => False

/-- Readers leave the writers alone. -/
theorem Moves.writeRank_eq (move : Moves kind s action next) (reads : Reads action) (u : Thread) :
    writeRank (next.pc u) = writeRank (s.pc u) := by
  cases move with
  | dropRead => rfl
  | read here | leaveRead here | returnRead here =>
      rw [goto_pc]
      split
      case isTrue same => rw [same, here]; rfl
      case isFalse => rfl
  | _ => exact reads.elim

/-- A `dirty_ref` with an open section returns its guard. -/
theorem exists_return {call : ReadCall} {count : Nat} (here : s.pc t = .reading call count)
    (method : call.method = .dirtyRef) :
    ∃ next, s.step kind (.leaveRead t (some .container)) = some next :=
  ⟨_, by simp only [step, here, method, ReadMethod.handsOut, if_true]; rfl⟩

/-- A write call that returns no guard drops its lock. -/
theorem exists_drop {call : WriteCall} (here : s.pc t = .writing call)
    (single : call.method.handsOut = none) :
    s.step kind (.leaveWrite t none) = some (s.goto t (.lower call.id)) := by
  have release : call.method.mayRelease = true := by
    cases method : call.method <;> simp_all [WriteMethod.handsOut, WriteMethod.mayRelease]
  simp only [step, here, release, if_true]

/-- A thread that has room calls a read. -/
theorem exists_call {method : ReadMethod} (idle : s.pc t = .idle) (room : s.HasRoom t) :
    ∃ next, s.step kind (.read t method) = some next :=
  ⟨_, if_pos ⟨idle, room⟩⟩

end State

namespace Vecs

variable {Index Thread V : Type} [DecidableEq Index] [DecidableEq Thread] {w : Nat}
variable {eq : V → V → Bool} {contents : Index → List V} {s next : Vecs Index Thread V w}
variable {action : VecAction Index Thread V} {t : Thread} {x : Index}
variable {indices : Finset Index} {threads : Finset Thread}

omit [DecidableEq Index] [DecidableEq Thread] in
/-- A comparison is moved by one thread. -/
theorem Turns.thread_eq {u : Thread} {phase other : Comparison Index V}
    (turn : Turns eq s t action phase) (turn' : Turns eq s u action other) : t = u := by
  cases turn <;> cases turn' <;> rfl

/-- A turn of a running comparison is progress. -/
theorem Turns.rankLess (turn : Turns eq s t action (next.phases t)) (comparing : s.phases t ≠ .idle)
    (stepped : s.step eq action = some next) (agree : s.Agree eq) (involved : t ∈ threads) :
    RankLess (next.rank indices threads) (s.rank indices threads) := by
  refine rankLess_of_turn involved (fun x u => ?_) (fun u other => ?_) ?_
  · rcases moves_at stepped x with ⟨same, -⟩ | ⟨below, acts, move⟩
    · rw [same]
    · refine move.writeRank_eq ?_ u
      generalize next.phases t = phase at turn
      cases turn <;> cases acts <;> trivial
  · rcases (moves_of_step stepped).turns u with ⟨same, -⟩ | turn'
    · exact same
    · exact absurd (turn'.thread_eq turn) other
  · generalize next.phases t = phase at turn
    cases turn with
    | compare here => exact absurd here comparing
    | visit visits => exact visits.progress (agree t)
    | held here | second here | lengths here | dropped here | returned here =>
        rw [here]
        exact .inl (Nat.lt_succ_self _)

/-- What holds while the started calls are finished. -/
structure Finishing (eq : V → V → Bool) (contents : Index → List V) (indices : Finset Index)
    (threads : Finset Thread) (s : Vecs Index Thread V w) : Prop where
  reachable : (comparisons Thread w eq contents).Reachable s
  free : ¬ s.Deadlocked
  covered : s.Covered indices threads

/-- Some step brings the state closer to the return of the last call. -/
def Progresses (eq : V → V → Bool) (contents : Index → List V) (indices : Finset Index)
    (threads : Finset Thread) (s : Vecs Index Thread V w) : Prop :=
  ∃ action next, (comparisons Thread w eq contents).Step s action next ∧
    Finishing eq contents indices threads next ∧
    RankLess (next.rank indices threads) (s.rank indices threads)

namespace Finishing

variable (finishing : s.Finishing eq contents indices threads)
include finishing

theorem preserved (move : (comparisons Thread w eq contents).Step s action next)
    (inside : Inside indices threads action)
    (quiet : ∀ x t call, action = .sync x (.step t) → (s.stores x).pc t = .raise call →
      ∀ u, s.phases u = .idle) : next.Finishing eq contents indices threads where
  reachable := finishing.reachable.step move
  free deadlocked := by
    rcases deadlocked_before deadlocked move.2.2 with before | ⟨x, t, call, same, here, circular⟩
    · exact finishing.free before
    · obtain ⟨circle, ⟨y, member⟩, closed⟩ := circular
      obtain ⟨-, u, z, -, waits⟩ := closed y member
      exact waits.ne_idle (quiet x t call same here u)
  covered := finishing.covered.preserved move.2.2 inside

/-- A step of a method makes progress, unless it enters under a raised flag or
raises one next to a comparison. -/
theorem progresses_of_step (enabled : ∃ moved, (s.stores x).advance t = some moved)
    (enters : ∀ call count, (s.stores x).pc t = .add call count → (s.stores x).writing = false)
    (zero : ∀ call position counter, (s.stores x).pc t = .scan call position →
      (s.stores x).registry[position]? = some counter → counter = 0)
    (quiet : ∀ call, (s.stores x).pc t = .raise call → ∀ u, s.phases u = .idle) :
    s.Progresses eq contents indices threads := by
  obtain ⟨moved, advanced⟩ := enabled
  have followed :
      (s.phases t).follow x ((s.stores x).pc t).opened (.step t) = some (s.phases t) := by
    cases s.phases t <;> rfl
  have stepped : s.step eq (.sync x (.step t)) = some ((s.put x moved).goto t (s.phases t)) := by
    simp only [step, Action.thread, followed, State.step, advanced, Option.bind_some,
      Option.map_some]
  have busy := (State.moves_of_advance .vec advanced).busy_of_step
  obtain ⟨inside, involved⟩ := finishing.covered.busy x t busy
  have move : (comparisons Thread w eq contents).Step s (.sync x (.step t)) _ :=
    ⟨trivial, fun below on => by cases on; trivial, stepped⟩
  refine ⟨_, _, move, finishing.preserved move ⟨?_, by simp⟩ ?_,
    rankLess_of_step stepped inside involved enters zero⟩
  · rintro _ _ ⟨⟩
    exact ⟨inside, involved⟩
  · rintro _ _ call ⟨⟩ here
    exact quiet call here

/-- A turn of a running comparison makes progress. -/
theorem progresses_of_turn (move : (comparisons Thread w eq contents).Step s action next)
    (turn : Turns eq s t action (next.phases t)) (comparing : s.phases t ≠ .idle) :
    s.Progresses eq contents indices threads := by
  have agree := agree_of_reachable finishing.reachable.of_restrict
  obtain ⟨⟨self, other⟩, operands⟩ : ∃ operands, (s.phases t).operands = some operands :=
    Option.ne_none_iff_exists'.mp (mt Comparison.operands_eq_none.mp comparing)
  obtain ⟨involved, member, member'⟩ := finishing.covered.compares t self other operands
  refine ⟨action, next, move, finishing.preserved move ⟨fun x below acts => ?_, ?_⟩ ?_,
    turn.rankLess comparing move.2.2 agree involved⟩
  · generalize next.phases t = phase at turn
    cases turn with
    | compare here => exact absurd here comparing
    | visit => cases acts
    | held here | returned here =>
        cases acts
        rw [here] at operands
        cases operands
        exact ⟨member, involved⟩
    | second here | lengths here | dropped here =>
        cases acts
        rw [here] at operands
        cases operands
        exact ⟨member', involved⟩
  · rintro u self' other' rfl
    generalize next.phases t = phase at turn
    cases turn with
    | compare here => exact absurd here comparing
  · rintro x u call rfl here
    generalize next.phases t = phase at turn
    cases turn

theorem progresses_of_sync {below : Action Thread} {moved : State Thread w}
    {phase : Comparison Index V} (taken : (s.stores x).step .vec below = some moved)
    (comparing : s.phases below.thread ≠ .idle)
    (followed : (s.phases below.thread).follow x ((s.stores x).pc below.thread).opened below =
      some phase) (atOnePlace : AtOnePlace s.stores (x, below))
    (only : VecAction.OnlyCompares s (.sync x below))
    (turn : Turns eq s below.thread (.sync x below) phase) :
    s.Progresses eq contents indices threads := by
  have stepped : s.step eq (.sync x below) =
      some ((s.put x moved).goto below.thread phase) := by
    simp only [step, followed, taken, Option.bind_some, Option.map_some]
  have move : (comparisons Thread w eq contents).Step s (.sync x below) _ :=
    ⟨only, fun _ on => by cases on; exact atOnePlace, stepped⟩
  exact finishing.progresses_of_turn move (by rwa [goto_phases_self]) comparing

theorem progresses_of_visit {phase : Comparison Index V}
    (visited : (s.phases t).visit eq s.contents = some phase) :
    s.Progresses eq contents indices threads := by
  have visits := Comparison.visits_of_visit visited
  have stepped : s.step eq (.visit t) = some (s.goto t phase) := by
    simp only [step, visited, Option.map_some]
  have atOnePlace : VecAction.AtOnePlace s (.visit t) := fun below on => by cases on
  have move : (comparisons Thread w eq contents).Step s (.visit t) _ :=
    ⟨trivial, atOnePlace, stepped⟩
  exact finishing.progresses_of_turn move (by rw [goto_phases_self]; exact .visit visits)
    visits.ne_idle.1

/-- A comparison with a section of `begin_read` open takes its guard. -/
theorem progresses_of_reading (reading : ((s.stores x).pc t).isReading = true) :
    s.Progresses eq contents indices threads := by
  have follows := follows_of_reachable finishing.reachable
  cases here : (s.stores x).pc t with
  | reading call count =>
      have reads := follows.reads_of_inRead (t := t) (x := x) (by rw [here]; rfl)
      have opened : ((s.stores x).pc t).opened = some call.id := by rw [here]; rfl
      have method := follows.dirtyRef x t call (by rw [here]; rfl)
      obtain ⟨moved, taken⟩ : ∃ moved, (s.stores x).step .vec (.leaveRead t (some .container)) =
          some moved := State.exists_return here method
      cases phase : s.phases t with
      | first self other =>
          rw [phase] at reads
          cases reads
          refine finishing.progresses_of_sync taken (by simp [phase]) ?_ trivial trivial
            (.held phase opened)
          simp [phase, Comparison.follow, opened]
      | second self other left =>
          rw [phase] at reads
          cases reads
          refine finishing.progresses_of_sync taken (by simp [phase]) ?_ trivial trivial
            (.lengths phase opened)
          simp [phase, Comparison.follow, opened]
      | _ => simp [phase, Comparison.reads] at reads
  | _ => simp [here, Pc.isReading] at reading

/-- A comparison that holds one guard has room for the other. -/
theorem hasRoom_of_held (wide : 2 ≤ w) {self other : Index} {left : Nat}
    (here : s.phases t = .held self other left) : (s.stores other).HasRoom t := by
  have follows := follows_of_reachable finishing.reachable
  have registered := State.registered_of_reachable
    (container_reachable finishing.reachable.of_restrict other)
  have two : 2 ^ 2 ≤ 2 ^ w := Nat.pow_le_pow_right (by decide) wide
  have one : (s.stores other).guardsOf t ≤ 1 := by
    cases slot : (s.stores other).slots t with
    | none => simp [State.guardsOf_eq_zero slot]
    | some count =>
        rw [State.guardsOf_eq slot]
        calc guardsOn (s.stores other).readGuards count
            ≤ (s.stores other).readGuards.countP (·.id == left) := by
              refine List.countP_mono_left fun guard live same => ?_
              obtain ⟨-, member, mine⟩ := follows.owned other guard live
              rw [beq_iff_eq] at same ⊢
              have holder := registered.slot_injective _ _ _ mine (same ▸ slot)
              rw [holder, here] at member
              exact (Prod.mk.inj (List.mem_singleton.mp member)).2
          _ = ((s.stores other).readGuards.map (·.id)).count left := by
              rw [List.count, List.countP_map]
              rfl
          _ ≤ 1 := List.nodup_iff_count_le_one.mp (follows.nodup other) left
  unfold State.HasRoom
  omega

/-- A comparison outside of `begin_read` goes on. -/
theorem progresses_of_outside (wide : 2 ≤ w) (comparing : s.phases t ≠ .idle)
    (outside : (s.phases t).reads = none) : s.Progresses eq contents indices threads := by
  have follows := follows_of_reachable finishing.reachable
  have held := held_of_reachable finishing.reachable.of_restrict
  have agrees := agree_of_reachable finishing.reachable.of_restrict t
  have idle x : (s.stores x).pc t = .idle :=
    follows.idle_of_comparing comparing (by rw [outside]; simp)
  cases here : s.phases t with
  | idle => exact absurd here comparing
  | first | second => simp [here, Comparison.reads] at outside
  | held self other left =>
      obtain ⟨moved, taken⟩ :
          ∃ moved, (s.stores other).step .vec (.read t .dirtyRef) = some moved :=
        State.exists_call (idle other) (finishing.hasRoom_of_held wide here)
      exact finishing.progresses_of_sync taken comparing (by simp [here, Comparison.follow]) idle
        comparing (.second here)
  | lengths self other left right length =>
      obtain ⟨next, visited⟩ := Comparison.exists_visit_of_lengths eq s.contents self other left
        right length
      exact finishing.progresses_of_visit (here ▸ visited)
  | elements self other left right length next element =>
      rw [here] at agrees
      obtain ⟨next, visited⟩ := agrees.exists_visit
      exact finishing.progresses_of_visit (here ▸ visited)
  | decided self other left right result =>
      obtain ⟨guard, live, rfl, rfl, -⟩ := held.live t other right
        (by rw [here]; exact List.mem_cons_of_mem _ (List.mem_singleton_self _))
      obtain ⟨moved, taken⟩ : ∃ moved, (s.stores other).step .vec
          (.dropRead guard.holder guard.id) = some moved := State.exists_dropRead live (idle other)
      exact finishing.progresses_of_sync taken comparing (by simp [here, Comparison.follow]) idle
        trivial (.dropped here)
  | dropped self other left result =>
      obtain ⟨guard, live, rfl, rfl, -⟩ := held.live t self left
        (by rw [here]; exact List.mem_singleton_self _)
      obtain ⟨moved, taken⟩ : ∃ moved, (s.stores self).step .vec
          (.dropRead guard.holder guard.id) = some moved := State.exists_dropRead live (idle self)
      exact finishing.progresses_of_sync taken comparing (by simp [here, Comparison.follow]) idle
        trivial (.returned here)

/-- A thread in a write method is in no comparison. -/
theorem phase_of_write (busy : (s.stores x).pc t ≠ .idle)
    (writes : ((s.stores x).pc t).inRead = false) : s.phases t = .idle := by
  have follows := follows_of_reachable finishing.reachable
  by_contra comparing
  refine busy (follows.idle_of_comparing comparing fun reads => ?_)
  cases writes.symm.trans (follows.inRead_of_reads reads)

/-- The body of a write method ends. -/
theorem progresses_of_writing {call : WriteCall} (here : (s.stores x).pc t = .writing call) :
    s.Progresses eq contents indices threads := by
  have idle := finishing.phase_of_write (t := t) (x := x) (by simp [here]) (by rw [here]; rfl)
  have single := (follows_of_reachable finishing.reachable).single x t call (by rw [here]; rfl)
  obtain ⟨inside, involved⟩ := finishing.covered.busy x t (by simp [here])
  let moved := (s.stores x).goto t (.lower call.id)
  have taken : (s.stores x).step .vec (.leaveWrite t none) = some moved :=
    State.exists_drop here single
  have stepped : s.step eq (.sync x (.leaveWrite t none)) =
      some ((s.put x moved).goto t .idle) := by
    simp only [step, Action.thread, idle, Comparison.follow, taken, Option.bind_some,
      Option.map_some]
  have move : (comparisons Thread w eq contents).Step s (.sync x (.leaveWrite t none)) _ :=
    ⟨trivial, fun _ on => by cases on; trivial, stepped⟩
  refine ⟨_, _, move, finishing.preserved move ⟨?_, by simp⟩ (by simp), Prod.Lex.left _ _ ?_⟩
  · rintro _ _ ⟨⟩
    exact ⟨inside, involved⟩
  · have elsewhere : ∀ y, y ≠ x → ((s.put x moved).goto t .idle).stores y = s.stores y :=
      fun y other => put_stores_of_ne _ _ _ _ other
    have others : ∀ u, u ≠ t →
        (((s.put x moved).goto t .idle).stores x).pc u = (s.stores x).pc u := by
      intro u other
      rw [goto_stores, put_stores_self]
      exact State.goto_pc_of_ne _ _ _ _ other
    have writes := totals_add (fun _ => State.writeRank) inside involved elsewhere others rfl
    rw [goto_stores, put_stores_self, here, State.goto_pc_self] at writes
    simp only [State.writeRank] at writes ⊢
    omega

end Finishing

/-- No reader and no comparison can get on: all that are left are about to enter
vectors whose flags are up. -/
structure Stalled (s : Vecs Index Thread V w) : Prop where
  inside : ∀ t, s.phases t ≠ .idle → (s.phases t).reads ≠ none
  closed : ∀ x t, ((s.stores x).pc t).isReading = false
  waiting : ∀ x t, ((s.stores x).pc t).entering = true →
    State.waits ((s.stores x).pc t) = true ∧ (s.stores x).writing = true

namespace Finishing

variable (finishing : s.Finishing eq contents indices threads)
include finishing

theorem progresses_or_stalled (wide : 2 ≤ w) :
    s.Progresses eq contents indices threads ∨ s.Stalled := by
  have below x := container_reachable finishing.reachable.of_restrict x
  by_cases outside : ∃ t, s.phases t ≠ .idle ∧ (s.phases t).reads = none
  · obtain ⟨t, comparing, outside⟩ := outside
    exact .inl (finishing.progresses_of_outside wide comparing outside)
  by_cases reading : ∃ x t, ((s.stores x).pc t).isReading = true
  · obtain ⟨x, t, reading⟩ := reading
    exact .inl (finishing.progresses_of_reading reading)
  -- A back-off or a registration can be finished under a flag that is up, too.
  by_cases moving : ∃ x t, ((s.stores x).pc t).entering = true ∧
      State.waits ((s.stores x).pc t) = false
  · obtain ⟨x, t, entering, moves⟩ := moving
    refine .inl (finishing.progresses_of_step (x := x) (t := t)
      (State.advance_of_entering entering fun call here => ?_) (fun call count here => ?_)
      (fun call position counter here => ?_) fun call here => ?_)
    · rw [here] at moves
      cases moves
    · rw [here] at moves
      cases moves
    · rw [here] at entering
      cases entering
    · rw [here] at entering
      cases entering
  by_cases opening : ∃ x t, ((s.stores x).pc t).entering = true ∧ (s.stores x).writing = false
  · obtain ⟨x, t, entering, down⟩ := opening
    have free : (s.stores x).registryLock = none := by
      refine Option.eq_none_iff_forall_ne_some.mpr fun u owner => moving ?_
      rcases State.holder_registers (State.registered_of_reachable (below x))
        (State.locked_of_reachable (below x)) down owner with ⟨call, here⟩ | ⟨call, count, here⟩
      · exact ⟨x, u, by rw [here]; rfl, by rw [here]; rfl⟩
      · exact ⟨x, u, by rw [here]; rfl, by rw [here]; rfl⟩
    refine .inl (finishing.progresses_of_step (x := x) (t := t)
      (State.advance_of_entering entering fun _ _ => free) (fun _ _ _ => down)
      (fun call position counter here => ?_) fun call here => ?_)
    · rw [here] at entering
      cases entering
    · rw [here] at entering
      cases entering
  · push Not at outside reading moving opening
    refine .inr ⟨fun t comparing => outside t comparing, fun x t => by simpa using reading x t,
      fun x t entering => ⟨by simpa using moving x t entering, by simpa using opening x t entering⟩⟩

end Finishing

namespace Stalled

variable (stalled : s.Stalled)
include stalled

omit [DecidableEq Thread] in
/-- Every comparison waits at a flag that is up. -/
theorem exists_wait (follows : s.Follows) (comparing : s.phases t ≠ .idle) :
    ∃ y, (s.phases t).reads = some y ∧ (s.stores y).writing = true := by
  obtain ⟨y, reads⟩ := Option.ne_none_iff_exists'.mp (stalled.inside t comparing)
  have entering := Pc.entering_of_inRead (follows.inRead_of_reads reads) (stalled.closed y t)
  exact ⟨y, reads, (stalled.waiting y t entering).2⟩

omit [DecidableEq Index] [DecidableEq Thread] in
/-- No reader is in the way of a scan for longer than its guard lives. -/
theorem unpinned (x : Index) (t : Thread) : State.pinRank ((s.stores x).pc t) = 0 := by
  have reading := stalled.closed x t
  have waiting := stalled.waiting x t
  cases here : (s.stores x).pc t <;>
    simp_all [State.pinRank, Pc.isReading, Pc.entering, State.waits]

omit [DecidableEq Thread] in
/-- A vector that no waiting comparison has a section of has no guard. -/
theorem readGuards_eq_nil (follows : s.Follows)
    (unwaited : ∀ t y, (s.stores y).writing = true → ¬ s.Waits t x y) :
    (s.stores x).readGuards = [] := by
  refine List.eq_nil_iff_forall_not_mem.mpr fun guard live => ?_
  obtain ⟨-, member, -⟩ := follows.owned x guard live
  have comparing : s.phases guard.holder ≠ .idle := fun idle => by
    rw [idle] at member
    cases member
  obtain ⟨y, reads, up⟩ := stalled.exists_wait follows comparing
  refine unwaited guard.holder y up ?_
  cases phase : s.phases guard.holder with
  | second self other left =>
      rw [phase] at member reads
      cases reads
      obtain ⟨rfl, -⟩ := Prod.mk.inj (List.mem_singleton.mp member)
      exact .second phase (stalled.closed _ _)
  | first =>
      rw [phase] at member
      cases member
  | _ => simp [phase, Comparison.reads] at reads

end Stalled

namespace Finishing

variable (finishing : s.Finishing eq contents indices threads)
include finishing

/-- If readers are stalled and some flags are up, one of their writers gets on. -/
theorem progresses_of_closed (stalled : s.Stalled) (closed : ∃ x, (s.stores x).writing = true) :
    s.Progresses eq contents indices threads := by
  have follows := follows_of_reachable finishing.reachable
  -- Some vector is waited for by writers only.
  obtain ⟨x, up, unwaited⟩ : ∃ x, (s.stores x).writing = true ∧
      ∀ t y, (s.stores y).writing = true → ¬ s.Waits t x y := by
    by_contra none
    push Not at none
    refine finishing.free ⟨{x | (s.stores x).writing = true}, closed, fun x up => ⟨up, ?_⟩⟩
    obtain ⟨t, y, up', waits⟩ := none x up
    exact ⟨t, y, up', waits⟩
  have below := container_reachable finishing.reachable.of_restrict x
  have registered := State.registered_of_reachable below
  have locked := State.locked_of_reachable below
  have guards := stalled.readGuards_eq_nil follows unwaited
  obtain ⟨t, owner⟩ : ∃ t, (s.stores x).write = some t := by
    refine Option.ne_none_iff_exists'.mp fun free => ?_
    cases up.symm.trans (locked.flag_free free)
  have owns : ((s.stores x).pc t).ownsWrite = true := by
    rcases (locked.owner_iff t).mp owner with owns | ⟨guard, live, -⟩
    · exact owns
    · rw [follows.unguarded x] at live
      cases live
  have raised : ((s.stores x).pc t).raised = true := (locked.flag_call t owns).symm.trans up
  by_cases writing : ∃ call, (s.stores x).pc t = .writing call
  · obtain ⟨call, here⟩ := writing
    exact finishing.progresses_of_writing here
  · push Not at writing
    refine finishing.progresses_of_step
      (State.advance_of_owner registered locked (stalled.unpinned x) owns writing)
      (fun call count here => ?_)
      (fun _ _ _ _ loaded => State.zero_of_unpinned registered
        (State.accounted_of_reachable below) (stalled.unpinned x) guards loaded)
      fun call here => ?_
    · rw [here] at owns
      cases owns
    · rw [here] at raised
      cases raised

/-- If readers are stalled and all flags are down, there are no comparisons, and
a writer gets on. -/
theorem progresses_of_open (stalled : s.Stalled) (down : ∀ x, (s.stores x).writing = false)
    (left : ∃ t, s.InCall t) : s.Progresses eq contents indices threads := by
  have follows := follows_of_reachable finishing.reachable
  have idle : ∀ t, s.phases t = .idle := by
    intro t
    by_contra comparing
    obtain ⟨y, -, up⟩ := stalled.exists_wait follows comparing
    cases up.symm.trans (down y)
  have outside : ∀ x t, ((s.stores x).pc t).inRead = false := by
    intro x t
    by_contra inRead
    have reads := follows.reads_of_inRead (Bool.eq_true_of_not_eq_false inRead)
    rw [idle t] at reads
    cases reads
  have locked x := State.locked_of_reachable (container_reachable finishing.reachable.of_restrict x)
  -- A method that owns the mutex is before the store of the flag, or after its end.
  have owned : ∀ x t, ((s.stores x).pc t).ownsWrite = true →
      s.Progresses eq contents indices threads := by
    intro x t owns
    have raised : ((s.stores x).pc t).raised = false :=
      ((locked x).flag_call t owns).symm.trans (down x)
    have enabled : ∃ moved, (s.stores x).advance t = some moved := by
      cases here : (s.stores x).pc t with
      | raise call | unlock id => exact ⟨_, by simp only [State.advance, here]; rfl⟩
      | _ => simp_all [Pc.ownsWrite, Pc.raised]
    refine finishing.progresses_of_step enabled (fun call count here => ?_)
      (fun call position counter here => ?_) fun _ _ => idle
    · rw [here] at owns
      cases owns
    · rw [here] at raised
      cases raised
  obtain ⟨t, comparing | ⟨x, busy⟩⟩ := left
  · exact absurd (idle t) comparing
  · by_cases owns : ∃ u, ((s.stores x).pc u).ownsWrite = true
    · obtain ⟨u, owns⟩ := owns
      exact owned x u owns
    · push Not at owns
      have free : (s.stores x).write = none := by
        refine Option.eq_none_iff_forall_ne_some.mpr fun u owner => ?_
        rcases ((locked x).owner_iff u).mp owner with owns' | ⟨guard, live, -⟩
        · exact owns u owns'
        · rw [follows.unguarded x] at live
          cases live
      have unowned := owns t
      have outside := outside x t
      obtain ⟨call, here⟩ : ∃ call, (s.stores x).pc t = .acquire call := by
        cases here : (s.stores x).pc t <;> simp_all [Pc.ownsWrite, Pc.inRead]
      have enabled : ∃ moved, (s.stores x).advance t = some moved :=
        ⟨_, by simp only [State.advance, here, free]; rfl⟩
      refine finishing.progresses_of_step enabled (fun call count here' => ?_)
        (fun call position counter here' => ?_) fun _ _ => idle
      · cases here.symm.trans here'
      · cases here.symm.trans here'

/-- As long as a call is left, something can be done for one. -/
theorem progresses (wide : 2 ≤ w) (left : ∃ t, s.InCall t) :
    s.Progresses eq contents indices threads := by
  rcases finishing.progresses_or_stalled wide with progresses | stalled
  · exact progresses
  · by_cases closed : ∃ x, (s.stores x).writing = true
    · exact finishing.progresses_of_closed stalled closed
    · exact finishing.progresses_of_open stalled (by simpa using closed) left

end Finishing

/-- Where no vectors wait for each other every started call can return. -/
theorem allReturn_of_free (wide : 2 ≤ w)
    (reachable : (comparisons Thread w eq contents).Reachable s)
    (free : ¬ s.Deadlocked) : s.AllReturn eq contents := by
  obtain ⟨indices, threads, covered⟩ := exists_covered reachable.of_restrict
  have finishing : s.Finishing eq contents indices threads := ⟨reachable, free, covered⟩
  have closer : ∀ s : Vecs Index Thread V w, s.Finishing eq contents indices threads →
      ¬ (∀ t, ¬ s.InCall t) → s.Progresses eq contents indices threads :=
    fun s finishing left => finishing.progresses wide (by simpa using left)
  obtain ⟨last, ⟨actions, steps⟩, -, done⟩ :=
    System.continues_of_rank rankLess_wf (rank indices threads) closer s finishing
  exact ⟨actions, last, steps, fun t _ => ⟨actions, last, List.prefix_refl _, steps, done t⟩⟩

end Vecs

/-- Comparisons return unless vectors wait for each other. In every state that
threads which only compare and write can reach, every started call returns in
some finite continuation exactly if there is no set of vectors, all with their
flags up, each with an open first section of a comparison that has still to open
its second one on a vector of the set. So it does in every state of the runs in
which no writer raises its flag where that closes such a circle, and not after
one that does. -/
theorem comparisons_return_iff {Index Thread V : Type} [DecidableEq Index] [DecidableEq Thread]
    {w : Nat} (wide : 2 ≤ w) (eq : V → V → Bool) (contents : Index → List V) :
    (∀ s, (comparisons Thread w eq contents).Reachable s →
      (s.AllReturn eq contents ↔ ¬ s.Deadlocked)) ∧
    (∀ s, ((comparisons Thread w eq contents).restrict VecAction.Spares).Reachable s →
      s.AllReturn eq contents) ∧
    ∀ s action next, (comparisons Thread w eq contents).Reachable s →
      (comparisons Thread w eq contents).Step s action next → ¬ action.Spares s →
        ¬ next.AllReturn eq contents := by
  refine ⟨fun s reachable => ⟨fun returns deadlocked => ?_, Vecs.allReturn_of_free wide reachable⟩,
    fun s spared => ?_, fun s action next reachable move closes => ?_⟩
  · exact Vecs.not_allReturn_of_deadlocked reachable.of_restrict deadlocked returns
  · exact Vecs.allReturn_of_free wide spared.of_restrict (Vecs.not_deadlocked_of_spared spared)
  · exact Vecs.not_allReturn_of_deadlocked (reachable.step move).of_restrict
      (Vecs.deadlocked_of_closes move.2.2 closes)

/-- A vector is compared with itself, and nobody writes to it. -/
theorem started_comparison_returns : ∃ s : Vecs (Fin 1) (Fin 2) Nat 64,
    s.phases 0 = .first 0 0 ∧ s.AllReturn (· == ·) (fun _ => [7]) ∧ ¬ s.Deadlocked := by
  let start : Vecs (Fin 1) (Fin 2) Nat 64 := .new (Fin 2) 64 fun _ => [7]
  obtain ⟨s, stepped, here⟩ := (Option.any_eq_true _ _).mp
    (show (start.step (· == ·) (.compare 0 0 0)).any
      (fun s => decide (s.phases 0 = .first 0 0)) = true by decide +kernel)
  have move : ((comparisons (Fin 2) 64 (· == ·) fun _ : Fin 1 => [7]).restrict
      VecAction.Spares).Step start (.compare 0 0 0) s := by
    refine ⟨?_, trivial, by decide, stepped⟩
    rintro _ _ _ ⟨⟩
  have spared := (System.Reachable.initial rfl).step move
  have wide : 2 ≤ 64 := by decide
  have returned := (comparisons_return_iff wide (· == ·) fun _ => [7]).2.1 s spared
  have free := ((comparisons_return_iff wide (· == ·) fun _ => [7]).1 s spared.of_restrict).mp
    returned
  exact ⟨s, of_decide_eq_true here, returned, free⟩

/-- A reader compares a vector with itself and has opened the first section when
a writer raises the flag in a `push`. -/
def hangingRun {Index Thread V : Type} (x : Index) (reader writer : Thread) :
    List (VecAction Index Thread V) :=
  [.compare reader x x] ++ List.replicate 6 (.sync x (.step reader)) ++
    [.sync x (.leaveRead reader (some .container)), .sync x (.write writer .push),
      .sync x (.step writer), .sync x (.step writer)]

/-- Comparisons and writes alone do deadlock. -/
theorem comparison_may_hang : ¬ ∀ s : Vecs (Fin 1) (Fin 2) Nat 64,
    (comparisons (Fin 2) 64 (· == ·) fun _ => [7]).Reachable s →
      s.AllReturn (· == ·) fun _ => [7] := by
  intro returns
  obtain ⟨s, executed, met⟩ := (Option.any_eq_true _ _).mp
    (show (System.execute (System.guarded (Vecs.step (· == ·)) fun now action =>
      action.OnlyCompares now ∧ action.AtOnePlace now) (.new (Fin 2) 64 fun _ => [7])
        (hangingRun (0 : Fin 1) 0 1)).any (fun s => decide (s.phases 0 = .held 0 0 0) &&
          (s.stores 0).writing) = true by decide +kernel)
  obtain ⟨here, up⟩ := Bool.and_eq_true_iff.mp met
  have reachable := Vecs.reachable_of_schedule executed
  refine Vecs.not_allReturn_of_deadlocked reachable.of_restrict ?_ (returns s reachable)
  exact ⟨{0}, Set.singleton_nonempty 0, fun x member => by
    rw [Set.mem_singleton_iff.mp member]
    exact ⟨up, 0, 0, rfl, .held (of_decide_eq_true here)⟩⟩

end DarkStd.Sync
