import DarkStd.Sync.Linearization
import DarkStd.Sync.Quiescence
import DarkStd.Sync.Solo

/-!
# Exclusive access

`push_mut`, `insert_mut` and their like take `&mut self`: no call runs and no
guard is alive, so they go to the collection directly. What they do is what the
corresponding `&self` method does when its thread runs by itself: the mutex is
free, every counter is zero, and the body is the same. So a container that is
used both ways behaves as one that is only used by `&self` methods.
-/

namespace DarkStd.Sync

open DarkStd.Semantics

/-- The `&mut self` methods of a container type, each with the `&self` method
whose body it shares. None of them returns a guard. -/
structure MutMethods {C : Type} (methods : Interface C) where
  MutOp : Type
  mutBody : MutOp → Body C (Outcome methods.Result)
  shared : MutOp → methods.WriteOp
  mutBody_eq : ∀ op, mutBody op = methods.writeBody (shared op)
  releases : ∀ op, (methods.writeMethod (shared op)).mayRelease = true
  unguarded : ∀ op content result, (methods.write (shared op) content).2 ≠ .guard result

section Methods

/-- The `&mut self` methods of `SyncVec`. -/
inductive VecMut (V : Type) where
  | pushMut (v : V)
  | popMut
  | removeMut (index : Nat)

/-- The `&mut self` methods of the map types. -/
inductive MapMut (K V : Type) where
  | insertMut (k : K) (v : V)
  | removeMut (k : K)
  | clearMut
  | shrinkToFitMut

/-- `push_mut`, `pop_mut`, `remove_mut` -/
def Vec.mutBody {V : Type} : VecMut V → Vec.Code V
  | .pushMut v => .update (· ++ [v]) (ret (.option none))
  | .popMut => pop
  | .removeMut index => .look fun content =>
      if content.length > index then remove index else ret (.option none)

/-- `insert_mut`, `remove_mut`, `clear_mut`, `shrink_to_fit_mut` -/
def Map.mutBody {K V : Type} [DecidableEq K] (panics : Panics K V) :
    MapMut K V → Map.Code K V
  | .insertMut k v => insertBody panics k v
  | .removeMut k => search panics k fun old => .update (·.erase k) (ret (.option old))
  | .clearMut => .update (fun _ => ∅) (ret .unit)
  | .shrinkToFitMut => ret .unit

/-- `SyncVec<V>` -/
def vecMut (V : Type) (eq : V → V → Bool) : MutMethods (vecMethods V eq) where
  MutOp := VecMut V
  mutBody := Vec.mutBody
  shared
    | .pushMut v => .push v
    | .popMut => .pop
    | .removeMut index => .remove index
  mutBody_eq := by rintro (_ | _ | _) <;> rfl
  releases := by rintro (_ | _ | _) <;> rfl
  unguarded := by rintro (_ | _ | _) content result ⟨⟩

/-- `SyncHashMap<K, V>`, `SyncBtreeMap<K, V>` and `SyncIndexMap<K, V>`. -/
def mapMut (K V : Type) [DecidableEq K] (panics : Map.Panics K V) :
    MutMethods (mapMethods K V panics) where
  MutOp := MapMut K V
  mutBody := Map.mutBody panics
  shared
    | .insertMut k v => .insert k v
    | .removeMut k => .remove k
    | .clearMut => .clear
    | .shrinkToFitMut => .shrinkToFit
  mutBody_eq := by rintro (_ | _ | _ | _) <;> rfl
  releases := by rintro (_ | _ | _ | _) <;> rfl
  unguarded := by
    rintro (⟨k, v⟩ | k | _ | _) content result
    · show (Map.write panics (.insert k v) content).2 ≠ _
      rw [Map.write]
      split <;> rintro ⟨⟩
    · show (Map.write panics (.remove k) content).2 ≠ _
      rw [Map.write]
      split <;> rintro ⟨⟩
    · rintro ⟨⟩
    · rintro ⟨⟩

end Methods

/-- The action is the thread's own. -/
def StoreAction.By {C Thread : Type} {methods : Interface C} (t : Thread) :
    StoreAction methods Thread → Prop
  | .read u _ | .write u _ | .step u | .access u | .leave u | .look u _ | .use u _ _
  | .dropRead u _ | .dropWrite u _ => u = t
  | .send _ _ => False

/-- The runs in which only one thread acts. -/
def alone (kind : Kind) {C : Type} (methods : Interface C) {Thread : Type} [DecidableEq Thread]
    (w : Nat) (content : C) (t : Thread) :
    System (Store methods Thread w) (StoreAction methods Thread) :=
  (store kind methods Thread w content).restrict fun _ action => action.By t

namespace Store

variable {C Thread : Type} [DecidableEq Thread] {methods : Interface C} {w : Nat}

/-- A `&mut self` method has run, and is recorded as the `&self` method would be. -/
def exclusively (s : Store methods Thread w) (t : Thread) (op : methods.WriteOp) (after : C)
    (outcome : Outcome methods.Result) : Store methods Thread w where
  sync := { s.sync with nextCall := s.sync.nextCall + 1 }
  content := after
  running := Function.update s.running t none
  history := s.history ++
    [⟨s.sync.nextCall, .write op, s.content, after, some outcome, []⟩]
  events := s.events ++
    [.called s.sync.nextCall (.write op), .ended s.sync.nextCall outcome]

/-- The section of a write that was called where nobody else used the container:
the content as it is now, and the rest of the body. -/
def entered (s : Store methods Thread w) (t : Thread) (op : methods.WriteOp) (content : C)
    (rest : Body C (Outcome methods.Result)) : Store methods Thread w where
  sync := { s.sync with nextCall := s.sync.nextCall + 1, write := some t, writing := true }.goto t
    (.writing ⟨s.sync.nextCall, methods.writeMethod op⟩)
  content := content
  running := Function.update s.running t (some ⟨.write op, rest⟩)
  history := s.history ++ [⟨s.sync.nextCall, .write op, s.content, content, none, []⟩]
  events := s.events ++ [.called s.sync.nextCall (.write op)]

variable {kind : Kind} {first : C} {s : Store methods Thread w} {t : Thread}

/-- Steps that open no section change nothing but where the thread is. -/
theorem alone_of_walking {sync : State Thread w}
    (continues : (walking kind w t).Continues s.sync sync) :
    (alone kind methods w first t).Continues s { s with sync := sync } := by
  refine continues.map (fun sync => { s with sync := sync }) ?_
  rintro before _ after ⟨rfl, stepped, outside⟩
  have moved : (alone kind methods w first t).Step { s with sync := before } (.step t)
      { s with sync := after } := by
    refine ⟨rfl, ?_⟩
    change Store.step kind { s with sync := before } (.step t) = _
    simp only [step, stepped, Option.map_some, outside]
  exact .single moved

/-- What is recorded of the last section leaves the others alone. -/
theorem map_record_last {before : List (Section methods)} {e : Section methods}
    {change : Section methods → Section methods} (others : ∀ other ∈ before, other.id ≠ e.id) :
    (before ++ [e]).map (fun other => if other.id = e.id then change other else other) =
      before ++ [change e] := by
  rw [List.map_append, List.map_cons, if_pos rfl, List.map_nil]
  refine congrArg (· ++ _) ?_
  conv_rhs => rw [← List.map_id before]
  exact List.map_congr_left fun other member => if_neg (others other member)

/-- The step that opens a section. -/
theorem step_opens {id : Nat} {call : Running methods} {sync : State Thread w}
    (stepped : s.sync.step kind (.step t) = some sync) (opened : (sync.pc t).opened = some id)
    (running : s.running t = some call) :
    s.step kind (.step t) = some ({ s with sync := sync }.opens id call.op) := by
  simp only [step, stepped, Option.map_some, opened, running]

/-- The end of the body of a write that hands out nothing. -/
theorem step_leaves {op : methods.Op} {outcome : Outcome methods.Result} {call : WriteCall}
    {sync : State Thread w} (here : s.sync.pc t = .writing call)
    (running : s.running t = some ⟨op, .done outcome⟩)
    (unguarded : ∀ result, outcome ≠ .guard result)
    (stepped : s.sync.step kind (.leaveWrite t none) = some sync) :
    s.step kind (.leave t) = some (s.ends t call.id outcome sync) := by
  have hands : call.method.hands outcome = some none := by
    cases outcome with
    | guard result => exact absurd rfl (unguarded result)
    | returned | panicked => rfl
  simp only [step, running, here, hands, Option.bind_some, stepped, Option.map_some]

section Call

variable {op : methods.WriteOp}

/-- A write is called and gets through its `begin_write`. -/
theorem alone_to_entered (quiescent : s.sync.Quiescent)
    (locks : kind.locks (methods.writeMethod op) = true) :
    (alone kind methods w first t).Continues s
      (s.entered t op s.content (methods.writeBody op)) := by
  let call : WriteCall := ⟨s.sync.nextCall, methods.writeMethod op⟩
  let asked : State Thread w := { s.sync with nextCall := s.sync.nextCall + 1 }
  let held : State Thread w := { asked with write := some t, writing := true }
  let called := s.calls t (.write op) (asked.goto t (.acquire call))
  have calling : s.step kind (.write t op) = some called := by
    simp only [step, State.step, quiescent.returned t, locks, and_self, if_true, Option.map_some]
    rfl
  have raised : (walking kind w t).Continues called.sync (held.goto t (.scanLock call)) :=
    State.walking_to_raised (s := asked) quiescent.write
  have scanned : (walking kind w t).Continues (held.goto t (.scanLock call))
      ({ held with registryLock := some t }.goto t (.scanned call true)) :=
    State.walking_to_scanned (s := held) quiescent.registryLock quiescent.counters
  have enters : Store.step kind
      { called with sync := { held with registryLock := some t }.goto t (.scanned call true) }
      (.step t) = some (s.entered t op s.content (methods.writeBody op)) := by
    have free : held.registryLock = none := quiescent.registryLock
    have stepped : ({ held with registryLock := some t }.goto t (.scanned call true)).step kind
        (.step t) = some (held.goto t (.writing call)) := by
      simp [State.step, State.advance, State.goto, ← free]
    have opened : ((held.goto t (.writing call)).pc t).opened = some call.id := by
      rw [State.goto_pc_self]
      rfl
    rw [step_opens stepped opened (Function.update_self ..)]
    rfl
  have calls : (alone kind methods w first t).Step s (.write t op) called := ⟨rfl, calling⟩
  have opens : (alone kind methods w first t).Step
      { called with sync := { held with registryLock := some t }.goto t (.scanned call true) }
      (.step t) (s.entered t op s.content (methods.writeBody op)) := ⟨rfl, enters⟩
  exact ((System.Continues.single calls).trans
    (alone_of_walking (s := called) (raised.trans scanned))).trans (.single opens)

variable (fresh : ∀ other ∈ s.history, other.id ≠ s.sync.nextCall)
include fresh

/-- One access of the body. -/
theorem step_entered {content after : C} {body rest : Body C (Outcome methods.Result)}
    (stepped : body.step content = some (after, rest)) :
    (s.entered t op content body).step kind (.access t) = some (s.entered t op after rest) := by
  simp only [step, entered, State.goto_pc_self, Pc.opened, Function.update_self, stepped,
    Option.map_some, record, map_record_last (e := ⟨s.sync.nextCall, .write op, s.content, content,
      none, []⟩) fresh, Function.update_idem]

/-- The body of a write runs to its end. -/
theorem alone_body (body : Body C (Outcome methods.Result)) (content : C) :
    (alone kind methods w first t).Continues (s.entered t op content body)
      (s.entered t op (body.run content).1 (.done (body.run content).2)) := by
  have accessed {content after : C} {body rest : Body C (Outcome methods.Result)}
      (stepped : body.step content = some (after, rest)) :
      (alone kind methods w first t).Continues (s.entered t op content body)
        (s.entered t op after rest) := by
    have moved : (alone kind methods w first t).Step (s.entered t op content body) (.access t)
        (s.entered t op after rest) := ⟨rfl, step_entered fresh stepped⟩
    exact .single moved
  induction body generalizing content with
  | done outcome => exact .refl _
  | look next inductionHypothesis =>
      exact (accessed rfl).trans (inductionHypothesis content content)
  | update change next inductionHypothesis =>
      exact (accessed rfl).trans (inductionHypothesis (change content))

/-- A write that hands out nothing returns. -/
theorem alone_to_ended (quiescent : s.sync.Quiescent) {after : C}
    {outcome : Outcome methods.Result} (unguarded : ∀ result, outcome ≠ .guard result)
    (releases : (methods.writeMethod op).mayRelease = true) :
    (alone kind methods w first t).Continues (s.entered t op after (.done outcome))
      (s.exclusively t op after outcome) := by
  let call : WriteCall := ⟨s.sync.nextCall, methods.writeMethod op⟩
  let asked : State Thread w := { s.sync with nextCall := s.sync.nextCall + 1 }
  let held : State Thread w := { asked with write := some t, writing := true }
  let ended := (s.entered t op after (.done outcome)).ends t call.id outcome
    (held.goto t (.lower call.id))
  have leaves : (s.entered t op after (.done outcome)).step kind (.leave t) = some ended := by
    have here : (s.entered t op after (.done outcome)).sync.pc t = .writing call :=
      State.goto_pc_self ..
    refine step_leaves here (Function.update_self ..) unguarded ?_
    simp [entered, State.step, releases, held, asked, call]
  have dropped : (walking kind w t).Continues (held.goto t (.lower call.id))
      ({ held with writing := false, write := none }.goto t .idle) :=
    State.walking_to_dropped (s := held)
  have back : ({ held with writing := false, write := none } : State Thread w).goto t .idle =
      asked := by
    have same : ({ held with writing := false, write := none } : State Thread w) = asked := by
      simp only [held, asked, ← quiescent.writing, ← quiescent.write]
    rw [same, State.goto_of_eq (s := asked) (quiescent.returned t)]
  have result : ({ ended with sync := asked } : Store methods Thread w) =
      s.exclusively t op after outcome := by
    simp only [ended, ends, record, entered, exclusively, map_record_last (e := ⟨s.sync.nextCall,
      .write op, s.content, after, none, []⟩) fresh, Function.update_idem, List.append_assoc, call,
      asked]
    rfl
  have left : (alone kind methods w first t).Step (s.entered t op after (.done outcome)) (.leave t)
      ended := ⟨rfl, leaves⟩
  rw [← result]
  exact (System.Continues.single left).trans (back ▸ alone_of_walking (s := ended) dropped)

end Call

/-- What a `&mut self` method does, the `&self` method that shares its body does
in some of the steps of its thread. -/
theorem alone_exclusively (direct : MutMethods methods) (op : direct.MutOp)
    (quiescent : s.sync.Quiescent)
    (locks : kind.locks (methods.writeMethod (direct.shared op)) = true)
    (fresh : ∀ other ∈ s.history, other.id ≠ s.sync.nextCall) :
    (alone kind methods w first t).Continues s
      (s.exclusively t (direct.shared op) ((direct.mutBody op).run s.content).1
        ((direct.mutBody op).run s.content).2) := by
  have ran : (direct.mutBody op).run s.content = methods.write (direct.shared op) s.content := by
    rw [direct.mutBody_eq, methods.run_writeBody]
  have unguarded : ∀ result, ((direct.mutBody op).run s.content).2 ≠ .guard result := by
    rw [ran]
    exact direct.unguarded op s.content
  have body : (alone kind methods w first t).Continues
      (s.entered t (direct.shared op) s.content (direct.mutBody op))
      (s.entered t (direct.shared op) ((direct.mutBody op).run s.content).1
        (.done ((direct.mutBody op).run s.content).2)) :=
    alone_body fresh (direct.mutBody op) s.content
  have entered : (alone kind methods w first t).Continues s
      (s.entered t (direct.shared op) s.content (direct.mutBody op)) := by
    rw [direct.mutBody_eq]
    exact alone_to_entered quiescent locks
  exact (entered.trans body).trans
    (alone_to_ended fresh quiescent unguarded (direct.releases op))

end Store

/-- What may happen to a container that a thread owns at times. -/
inductive OwnedAction {C : Type} {methods : Interface C} (direct : MutMethods methods)
    (Thread : Type) where
  | shared (action : StoreAction methods Thread)
  /-- Call a `&mut self` method. -/
  | exclusive (thread : Thread) (op : direct.MutOp)

/-- A container of which both kinds of methods are called: `&mut self` is there
when no call runs and no guard is alive. `SyncBtreeMap::shrink_to_fit_mut` is as empty
as `shrink_to_fit`, and no call either. -/
def owned (kind : Kind) {C : Type} {methods : Interface C} (direct : MutMethods methods)
    (Thread : Type) [DecidableEq Thread] (w : Nat) (content : C) :
    System (Store methods Thread w) (OwnedAction direct Thread) where
  Initial s := s = .new methods Thread w content
  Step s action next :=
    match action with
    | .shared action => s.step kind action = some next
    | .exclusive t op => s.sync.Finished ∧
        kind.locks (methods.writeMethod (direct.shared op)) = true ∧
        next = s.exclusively t (direct.shared op) ((direct.mutBody op).run s.content).1
          ((direct.mutBody op).run s.content).2

/-- `into_inner`, and what `into_iter` goes through. -/
def Store.intoInner {C Thread : Type} {methods : Interface C} {w : Nat}
    (s : Store methods Thread w) : C :=
  s.content

namespace Store

variable {C Thread : Type} [DecidableEq Thread] {methods : Interface C} {w : Nat}
variable {kind : Kind} {content : C} {s : Store methods Thread w}

theorem owned_of_store {direct : MutMethods methods} {next : Store methods Thread w}
    (continues : (store kind methods Thread w content).Continues s next) :
    (owned kind direct Thread w content).Continues s next := by
  refine continues.map id fun s action next move => ?_
  have moved : (owned kind direct Thread w content).Step s (.shared action) next := move
  exact .single moved

/-- Nothing can be brought about with the `&mut self` methods that could not be
brought about without them. -/
theorem owned_reachable_iff (direct : MutMethods methods) :
    (owned kind direct Thread w content).Reachable s ↔
      (store kind methods Thread w content).Reachable s := by
  constructor
  · intro reachable
    induction reachable with
    | initial start => exact .initial start
    | @step s action next _ move inductionHypothesis =>
        cases action with
        | shared action => exact inductionHypothesis.step move
        | exclusive t op =>
            obtain ⟨finished, locks, rfl⟩ := move
            obtain ⟨sound, -, recorded, -⟩ := invariants_of_reachable inductionHypothesis
            have quiescent : s.sync.Quiescent :=
              finished.quiescent sound.registered sound.accounted sound.locked
            have fresh : ∀ other ∈ s.history, other.id ≠ s.sync.nextCall :=
              fun other member => Nat.ne_of_lt (recorded.id_lt other member)
            exact (alone_exclusively direct op quiescent locks fresh).of_restrict.reachable
              inductionHypothesis
  · intro reachable
    obtain ⟨start, actions, initial, steps⟩ := reachable.exists_steps
    exact (owned_of_store ⟨actions, steps⟩).reachable (.initial initial)

omit [DecidableEq Thread] in
/-- Where no call runs and no guard is alive, each call on record has ended. -/
theorem ended_of_finished (ordered : Ordered s) (finished : s.sync.Finished) :
    ∀ e ∈ s.history, ∃ outcome, e.outcome = some outcome := by
  intro e member
  refine Option.ne_none_iff_exists'.mp fun unended => ?_
  obtain ⟨t, opened⟩ := ordered.pending e member unended
  rw [finished.1 t] at opened
  cases opened

/-- The container is used as a list or a map is, by `&self` and `&mut self`
methods, up to the `into_inner` that takes it apart. -/
structure Owned (first : C) (s : Store methods Thread w) : Prop where
  linear : s.Linear first
  ended : s.sync.Finished → ∀ e ∈ s.history, ∃ outcome, e.outcome = some outcome
  intoInner : s.sync.Finished → Chained first (s.history.map Section.span) s.intoInner

theorem owned_of_reachable {direct : MutMethods methods}
    (reachable : (owned kind direct Thread w content).Reachable s) : s.Owned content := by
  have running := (owned_reachable_iff direct).mp reachable
  have linear := linear_of_reachable running
  obtain ⟨-, -, -, ordered⟩ := invariants_of_reachable running
  exact ⟨linear, ended_of_finished ordered, fun _ => linear.chained⟩

end Store

/-- The four container types, with the methods that take `&mut self` among
those that take `&self`: every state that is reached could be reached by the
`&self` methods, the calls of both kinds are an execution of whole operations one
at a time, and `into_inner` returns what that execution has left. -/
theorem owned_containers_linearizable {Thread : Type} [DecidableEq Thread] {w : Nat} :
    (∀ (V : Type) (eq : V → V → Bool) (content : List V) (s : Store (vecMethods V eq) Thread w),
      (owned .vec (vecMut V eq) Thread w content).Reachable s →
        (store .vec (vecMethods V eq) Thread w content).Reachable s ∧ s.Owned content) ∧
    ∀ kind : Kind, kind ≠ .vec → ∀ (K V : Type) [DecidableEq K] (panics : Map.Panics K V)
      (content : Map K V) (s : Store (mapMethods K V panics) Thread w),
      (owned kind (mapMut K V panics) Thread w content).Reachable s →
        (store kind (mapMethods K V panics) Thread w content).Reachable s ∧ s.Owned content :=
  ⟨fun _ _ _ _ reachable =>
      ⟨(Store.owned_reachable_iff _).mp reachable, Store.owned_of_reachable reachable⟩,
    fun _ _ _ _ _ _ _ _ reachable =>
      ⟨(Store.owned_reachable_iff _).mp reachable, Store.owned_of_reachable reachable⟩⟩

/-- A `push_mut` and then a `len` by another thread. -/
theorem push_mut_then_len_linearizable :
    ∃ s : Store (vecMethods Nat (· == ·)) (Fin 2) 64,
      s.intoInner = [7] ∧ s.order = [0, 1] ∧ s.Owned [] := by
  let start : Store (vecMethods Nat (· == ·)) (Fin 2) 64 := .new _ _ _ []
  let pushed := start.exclusively 0 (.push 7) [7] (.returned (.option none))
  have reachable : (owned .vec (vecMut Nat (· == ·)) (Fin 2) 64 []).Reachable pushed := by
    have moved : (owned .vec (vecMut Nat (· == ·)) (Fin 2) 64 []).Step start
        (.exclusive 0 (.pushMut 7)) pushed := ⟨⟨fun _ => rfl, rfl, rfl⟩, rfl, rfl⟩
    exact .step (.initial rfl) moved
  obtain ⟨s, ran, met⟩ := (Option.any_eq_true _ _).mp
    (show (System.execute (Store.step .vec) pushed
      [.read 1 .len, .step 1, .step 1, .step 1, .step 1, .step 1, .step 1, .access 1,
        .leave 1]).any (fun s => decide (s.intoInner = [7] ∧ s.order = [0, 1])) = true by
      decide +kernel)
  obtain ⟨content, order⟩ := of_decide_eq_true met
  have continues : (owned .vec (vecMut Nat (· == ·)) (Fin 2) 64 []).Continues pushed s :=
    Store.owned_of_store ⟨_, System.steps_of_execute ran⟩
  exact ⟨s, content, order,
    (owned_containers_linearizable.1 Nat _ [] s (continues.reachable reachable)).2⟩

end DarkStd.Sync
