import DarkStd.Sync.Snapshot

/-!
# Threads that only compare and write

The runs of threads that call nothing but `==` and the write methods that
return no guard. All read sections are then those of comparisons, so where a
thread is in its comparison says which sections it has open and which it is
opening, and no write lock outlives its call.
-/

namespace DarkStd.Sync

open DarkStd.Semantics

namespace Pc

/-- The read call that runs. -/
def readCall : Pc → Option ReadCall
  | .slot call | .register call | .push call | .release call _ | .add call _ | .load call _
  | .backOff call _ | .reading call _ => some call
  | _ => none

/-- The write call that runs, until it drops its lock. -/
def writeCall : Pc → Option WriteCall
  | .acquire call | .raise call | .scanLock call | .scan call _ | .scanned call _
  | .writing call => some call
  | _ => none

end Pc

namespace Comparison

variable {Index V : Type}

/-- The vector whose `dirty_ref` runs. -/
def reads : Comparison Index V → Option Index
  | .first self _ => some self
  | .second _ other _ => some other
  | .idle | .held .. | .lengths .. | .elements .. | .decided .. | .dropped .. => none

theorem Visits.reads_eq {eq : V → V → Bool} {contents : Index → List V}
    {phase next : Comparison Index V} (visits : Visits eq contents phase next) :
    phase.reads = none ∧ next.reads = none := by
  cases visits <;> exact ⟨rfl, rfl⟩

theorem Visits.ne_idle {eq : V → V → Bool} {contents : Index → List V}
    {phase next : Comparison Index V} (visits : Visits eq contents phase next) :
    phase ≠ .idle ∧ next ≠ .idle := by
  cases visits <;> simp

end Comparison

/-- What is called is a comparison or a write that returns no guard; the reads
are those of comparisons. -/
def VecAction.OnlyCompares {Index Thread V : Type} {w : Nat} (s : Vecs Index Thread V w) :
    VecAction Index Thread V → Prop
  | .sync _ (.read t _) => s.phases t ≠ .idle
  | .sync _ (.write _ method) => method.handsOut = none
  | _ => True

instance {Index Thread V : Type} [DecidableEq Index] [DecidableEq V] {w : Nat}
    (s : Vecs Index Thread V w) (action : VecAction Index Thread V) :
    Decidable (action.OnlyCompares s) := by
  unfold VecAction.OnlyCompares
  split <;> infer_instance

/-- Threads that only compare vectors and write to them. -/
def comparisons {Index V : Type} [DecidableEq Index] (Thread : Type) [DecidableEq Thread]
    (w : Nat) (eq : V → V → Bool) (contents : Index → List V) :
    System (Vecs Index Thread V w) (VecAction Index Thread V) :=
  (vecs Thread w eq contents).restrict VecAction.OnlyCompares

namespace State

variable {Thread : Type} [DecidableEq Thread] {w : Nat} {kind : Kind}
variable {s next : State Thread w} {action : Action Thread}

/-- A thread enters and leaves reads by calling them and returning. -/
theorem Moves.inRead_eq (move : Moves kind s action next) {t : Thread}
    (called : ∀ method, action ≠ .read t method)
    (left : ∀ returned, action ≠ .leaveRead t returned) :
    (next.pc t).inRead = (s.pc t).inRead := by
  cases move with
  | dropRead | send => rfl
  | @read u method =>
      exact congrArg _ (goto_pc_of_ne _ _ _ _ fun same => called method (same ▸ rfl))
  | @leaveRead u | @returnRead u =>
      exact congrArg _ (goto_pc_of_ne _ _ _ _ fun same => left _ (by rw [same]))
  | write here | loadFalse here | enter here | rescan here | scanEnd here | scanZero here
  | scanNonzero here | slotFound here | slotMissing here | register here | push here
  | release here | add here | loadTrue here | backOff here | acquire here | raise here
  | scanLock here | lower here | unlock here | leaveWrite here | returnWrite here
  | dropWrite here =>
      rw [goto_pc]
      split
      case isTrue same => simp_all [Pc.inRead]
      case isFalse => rfl

/-- A running read was running before, or it is being called. -/
theorem Moves.readCall_of_next (move : Moves kind s action next) {t : Thread} {call : ReadCall}
    (runs : (next.pc t).readCall = some call) :
    (s.pc t).readCall = some call ∨ action = .read t call.method := by
  cases move with
  | dropRead | send => exact .inl runs
  | @read u method =>
      rw [goto_pc] at runs
      split at runs
      case isTrue same =>
        obtain rfl := Option.some.inj runs
        exact .inr (same ▸ rfl)
      case isFalse => exact .inl runs
  | write here | loadFalse here | enter here | rescan here | scanEnd here | scanZero here
  | scanNonzero here | slotFound here | slotMissing here | register here | push here
  | release here | add here | loadTrue here | backOff here | acquire here | raise here
  | scanLock here | lower here | unlock here | leaveRead here | returnRead here | leaveWrite here
  | returnWrite here | dropWrite here =>
      rw [goto_pc] at runs
      split at runs
      case isTrue same => simp_all [Pc.readCall]
      case isFalse => exact .inl runs

/-- A running write was running before, or it is being called. -/
theorem Moves.writeCall_of_next (move : Moves kind s action next) {t : Thread} {call : WriteCall}
    (runs : (next.pc t).writeCall = some call) :
    (s.pc t).writeCall = some call ∨ action = .write t call.method := by
  cases move with
  | dropRead | send => exact .inl runs
  | @write u method =>
      rw [goto_pc] at runs
      split at runs
      case isTrue same =>
        obtain rfl := Option.some.inj runs
        exact .inr (same ▸ rfl)
      case isFalse => exact .inl runs
  | read here | loadFalse here | enter here | rescan here | scanEnd here | scanZero here
  | scanNonzero here | slotFound here | slotMissing here | register here | push here
  | release here | add here | loadTrue here | backOff here | acquire here | raise here
  | scanLock here | lower here | unlock here | leaveRead here | returnRead here | leaveWrite here
  | returnWrite here | dropWrite here =>
      rw [goto_pc] at runs
      split at runs
      case isTrue same => simp_all [Pc.writeCall]
      case isFalse => exact .inl runs

/-- A thread that has called a method, or has returned from one. -/
theorem Moves.pc_of_read {t : Thread} {method : ReadMethod}
    (move : Moves kind s (.read t method) next) : ∃ call, next.pc t = .slot call := by
  cases move
  exact ⟨_, goto_pc_self ..⟩

theorem Moves.pc_of_leaveRead {t : Thread} {returned : Option ReadKind}
    (move : Moves kind s (.leaveRead t returned) next) :
    (s.pc t).isReading = true ∧ next.pc t = .idle := by
  cases move with
  | leaveRead here | returnRead here => exact ⟨by rw [here]; rfl, goto_pc_self ..⟩

theorem Moves.busy_of_step {t : Thread} (move : Moves kind s (.step t) next) : s.pc t ≠ .idle := by
  cases move <;> simp_all

theorem Moves.pc_of_dropRead {t : Thread} {id : Nat} (move : Moves kind s (.dropRead t id) next) :
    next.pc = s.pc := by
  cases move
  rfl

/-- Guards have different ids. -/
theorem Moves.nodup_preserved (move : Moves kind s action next) (identified : s.Identified)
    (nodup : (s.readGuards.map (·.id)).Nodup) : (next.readGuards.map (·.id)).Nodup := by
  cases move with
  | @returnRead t call count guard here =>
      refine List.nodup_cons.mpr ⟨fun member => ?_, nodup⟩
      obtain ⟨old, live, same⟩ := List.mem_map.mp member
      exact identified.readGuard_ne t call.id (by rw [here]; rfl) old live same
  | @dropRead t guard => exact nodup.sublist (List.erase_sublist.map _)
  | @send receiver guard idle live =>
      have perm := (List.perm_cons_erase live).map (·.id)
      exact perm.nodup_iff.mp nodup
  | _ => exact nodup

/-- The guards are told apart by their calls. -/
theorem nodup_of_reachable (reachable : (container kind Thread w).Reachable s) :
    (s.readGuards.map (·.id)).Nodup := by
  refine reachable.invariant (fun s : State Thread w => (s.readGuards.map (·.id)).Nodup) ?_ ?_
  · rintro _ rfl
    exact .nil
  · intro s action next prior nodup stepped
    exact (moves_of_step stepped).nodup_preserved (identified_of_reachable prior) nodup

/-- Where a read guard comes from, if no iterators are sent around. -/
theorem Moves.readGuard_before (move : Moves kind s action next)
    (nodup : (s.readGuards.map (·.id)).Nodup) {guard : ReadGuard Thread}
    (live : guard ∈ next.readGuards) :
    (guard ∈ s.readGuards ∧ action ≠ .dropRead guard.holder guard.id) ∨
      (∃ count call, action = .leaveRead guard.holder (some guard.kind) ∧
        s.pc guard.holder = .reading call count ∧ call.id = guard.id ∧ count = guard.count) ∨
      ∃ sent ∈ s.readGuards, sent.kind = .iter := by
  cases move with
  | @returnRead t call count returned here =>
      rcases List.mem_cons.mp live with rfl | live
      · exact .inr (.inl ⟨count, call, rfl, here, rfl, rfl⟩)
      · exact .inl ⟨live, by simp⟩
  | @dropRead t dropped idle liveDropped =>
      refine .inl ⟨List.mem_of_mem_erase live, fun same => ?_⟩
      have same : dropped.id = guard.id := by injection same
      have equal := List.inj_on_of_nodup_map nodup liveDropped (List.mem_of_mem_erase live) same
      subst equal
      exact (nodup.of_map).not_mem_erase live
  | @send receiver sent idle liveSent iterator => exact .inr (.inr ⟨sent, liveSent, iterator⟩)
  | _ => exact .inl ⟨live, by simp⟩

/-- Without `get_mut` and `iter_mut` there are no write guards. -/
theorem Moves.writeGuards_eq_nil (move : Moves kind s action next) (none : s.writeGuards = [])
    (single : ∀ t call, (s.pc t).writeCall = some call → call.method.handsOut = Option.none) :
    next.writeGuards = [] := by
  cases move with
  | @returnWrite t call guard here allowed =>
      cases (single t call (by rw [here]; rfl)).symm.trans allowed
  | dropWrite idle live => exact absurd none (List.ne_nil_of_mem live)
  | _ => exact none

end State

namespace Comparison

variable {Index V : Type} [DecidableEq Index]

/-- Where a thread can be in the code of the vector `x`. Outside a comparison it
is in no read. -/
def Allows (phase : Comparison Index V) (x : Index) (pc : Pc) : Prop :=
  if phase.reads = some x then pc.inRead = true
  else pc.inRead = false ∧ (phase = .idle ∨ pc = .idle)

variable {phase : Comparison Index V} {x : Index} {pc : Pc}

theorem Allows.of_inRead (reads : phase.reads = some x) (inRead : pc.inRead = true) :
    phase.Allows x pc := by
  rwa [Allows, if_pos reads]

theorem Allows.of_idle (elsewhere : phase.reads ≠ some x) (idle : pc = .idle) :
    phase.Allows x pc := by
  rw [Allows, if_neg elsewhere]
  exact ⟨congrArg _ idle, .inr idle⟩

end Comparison

namespace Vecs

section Follows

variable {Index Thread V : Type} [DecidableEq Index] {w : Nat} {s : Vecs Index Thread V w}
variable {t : Thread} {x : Index}

/-- Who is where, and whose guards there are, if threads only compare and write. -/
structure Follows (s : Vecs Index Thread V w) : Prop where
  placed : ∀ t x, (s.phases t).Allows x ((s.stores x).pc t)
  dirtyRef : ∀ x t call, ((s.stores x).pc t).readCall = some call → call.method = .dirtyRef
  single : ∀ x t call, ((s.stores x).pc t).writeCall = some call → call.method.handsOut = none
  owned : ∀ x, ∀ guard ∈ (s.stores x).readGuards, guard.kind = .container ∧
    (x, guard.id) ∈ (s.phases guard.holder).guards ∧
    (s.stores x).slots guard.holder = some guard.count
  nodup : ∀ x, ((s.stores x).readGuards.map (·.id)).Nodup
  unguarded : ∀ x, (s.stores x).writeGuards = []

theorem Follows.new (contents : Index → List V) : (Vecs.new Thread w contents).Follows where
  placed _ _ := ⟨rfl, .inl rfl⟩
  dirtyRef := by simp [Vecs.new, State.new, Pc.readCall]
  single := by simp [Vecs.new, State.new, Pc.writeCall]
  owned := by simp [Vecs.new, State.new]
  nodup _ := .nil
  unguarded _ := rfl

/-- A running read is a `dirty_ref` of its thread's comparison. -/
theorem Follows.reads_of_inRead (follows : s.Follows)
    (inRead : ((s.stores x).pc t).inRead = true) : (s.phases t).reads = some x := by
  have placed := follows.placed t x
  by_contra other
  rw [Comparison.Allows, if_neg other, inRead] at placed
  cases placed.1

theorem Follows.inRead_of_reads (follows : s.Follows) (reads : (s.phases t).reads = some x) :
    ((s.stores x).pc t).inRead = true := by
  have placed := follows.placed t x
  rwa [Comparison.Allows, if_pos reads] at placed

/-- A thread that compares is nowhere but in its `dirty_ref`. -/
theorem Follows.idle_of_comparing (follows : s.Follows) (comparing : s.phases t ≠ .idle)
    (elsewhere : (s.phases t).reads ≠ some x) : (s.stores x).pc t = .idle := by
  have placed := follows.placed t x
  rw [Comparison.Allows, if_neg elsewhere] at placed
  exact placed.2.resolve_left comparing

end Follows

variable {Index Thread V : Type} [DecidableEq Index] [DecidableEq Thread] {w : Nat}
variable {eq : V → V → Bool} {s next : Vecs Index Thread V w}
variable {action : VecAction Index Thread V} {t : Thread} {x : Index}

/-- A guard is a comparison's until the comparison drops it. -/
theorem Moves.guards_stay (move : Moves eq s action next) {id : Nat}
    (member : (x, id) ∈ (s.phases t).guards) (kept : action ≠ .sync x (.dropRead t id)) :
    (x, id) ∈ (next.phases t).guards := by
  rcases move.turns t with ⟨same, -⟩ | turn
  · exact same ▸ member
  · generalize next.phases t = phase at turn
    cases turn with
    | compare here | held here =>
        rw [here] at member
        cases member
    | second here => rwa [here] at member
    | lengths here =>
        rw [here] at member
        exact List.mem_cons.mpr (.inl (List.mem_singleton.mp member))
    | visit visits => exact visits.guards_eq ▸ member
    | dropped here =>
        rw [here] at member
        rcases List.mem_cons.mp member with same | member
        · exact List.mem_singleton.mpr same
        · obtain ⟨rfl, rfl⟩ := Prod.mk.inj (List.mem_singleton.mp member)
          exact absurd rfl kept
    | returned here =>
        rw [here] at member
        obtain ⟨rfl, rfl⟩ := Prod.mk.inj (List.mem_singleton.mp member)
        exact absurd rfl kept

/-- Reads are called by comparisons. -/
theorem Moves.calls_dirtyRef (move : Moves eq s action next) (only : action.OnlyCompares s)
    {method : ReadMethod} (acts : action.below = some (x, .read t method)) :
    method = .dirtyRef ∧ next.phases t ≠ s.phases t := by
  cases move with
  | @sync y below _ allowed =>
      cases acts
      rcases allowed with idle | step
      · exact absurd idle only
      · cases step
  | compare here | second here =>
      cases acts
      refine ⟨rfl, ?_⟩
      rw [goto_phases_self, here]
      simp
  | held | lengths | dropped | returned | visit | change => cases acts

/-- A write that is called returns no guard. -/
theorem Moves.calls_single (move : Moves eq s action next) (only : action.OnlyCompares s)
    {method : WriteMethod} (acts : action.below = some (x, .write t method)) :
    method.handsOut = none := by
  cases move with
  | sync => cases acts; exact only
  | _ => cases acts

/-- A section ends by handing its guard to the comparison. -/
theorem Moves.returns_guard (move : Moves eq s action next) {returned : Option ReadKind} {id : Nat}
    (acts : action.below = some (x, .leaveRead t returned)) (comparing : s.phases t ≠ .idle)
    (opened : ((s.stores x).pc t).opened = some id) :
    returned = some .container ∧ (x, id) ∈ (next.phases t).guards := by
  cases move with
  | sync allowed =>
      cases acts
      rcases allowed with idle | step
      · exact absurd idle comparing
      · cases step
  | held _ opened' =>
      cases acts
      obtain rfl := Option.some.inj (opened.symm.trans opened')
      rw [goto_phases_self]
      exact ⟨rfl, List.mem_singleton_self _⟩
  | lengths _ opened' =>
      cases acts
      obtain rfl := Option.some.inj (opened.symm.trans opened')
      rw [goto_phases_self]
      exact ⟨rfl, List.mem_cons_of_mem _ (List.mem_singleton_self _)⟩
  | compare | second | dropped | returned | visit | change => cases acts

namespace Follows

variable (follows : s.Follows)
include follows

/-- A thread that stays where it is in its comparison stays in its read. -/
theorem allows_of_same (stepped : s.step eq action = some next) (only : action.OnlyCompares s)
    (same : next.phases t = s.phases t)
    (keeps : (s.phases t = .idle ∧ ∀ self other, action ≠ .compare t self other) ∨
      ∀ x below, action.below = some (x, below) → below.thread = t → below = .step t) :
    (next.phases t).Allows x ((next.stores x).pc t) := by
  have placed := follows.placed t x
  rw [same]
  rcases moves_at stepped x with ⟨kept, -⟩ | ⟨below, acts, move⟩
  · rwa [kept]
  have inRead : ((next.stores x).pc t).inRead = ((s.stores x).pc t).inRead := by
    refine move.inRead_eq ?_ ?_
    · rintro method rfl
      exact ((moves_of_step stepped).calls_dirtyRef only acts).2 same
    · rintro returned rfl
      rcases keeps with ⟨idle, -⟩ | keeps
      · have reading := move.pc_of_leaveRead.1
        have reads := follows.reads_of_inRead (t := t) (x := x)
          (by cases here : (s.stores x).pc t <;> simp_all [Pc.isReading, Pc.inRead])
        rw [idle] at reads
        cases reads
      · cases keeps x _ acts rfl
  unfold Comparison.Allows at placed ⊢
  rw [inRead]
  split
  case isTrue reads => rwa [if_pos reads] at placed
  case isFalse elsewhere =>
    rw [if_neg elsewhere] at placed
    refine ⟨placed.1, ?_⟩
    rcases keeps with ⟨idle, -⟩ | keeps
    · exact .inl idle
    · refine placed.2.imp_right fun idle => ?_
      by_cases actor : t = below.thread
      · cases keeps x below acts actor.symm
        exact absurd idle move.busy_of_step
      · rw [move.pc_of_ne actor, idle]

/-- A thread that takes a step of its comparison moves with it. -/
theorem allows_of_turns (stepped : s.step eq action = some next) (atOnePlace : action.AtOnePlace s)
    {phase : Comparison Index V} (turn : Turns eq s t action phase) :
    phase.Allows x ((next.stores x).pc t) := by
  have at_ := moves_at stepped x
  cases turn with
  | @compare self other here =>
      rcases at_ with ⟨kept, none⟩ | ⟨below, acts, move⟩
      · refine .of_idle ?_ (kept ▸ atOnePlace _ rfl x)
        rintro ⟨⟩
        exact none _ rfl
      · cases acts
        obtain ⟨call, here⟩ := move.pc_of_read
        exact .of_inRead rfl (by rw [here]; rfl)
  | @second self other left here =>
      rcases at_ with ⟨kept, none⟩ | ⟨below, acts, move⟩
      · refine .of_idle ?_ (kept ▸ follows.idle_of_comparing (by simp [here]) (by rw [here]; nofun))
        rintro ⟨⟩
        exact none _ rfl
      · cases acts
        obtain ⟨call, here⟩ := move.pc_of_read
        exact .of_inRead rfl (by rw [here]; rfl)
  | held here | lengths here =>
      refine .of_idle (by simp [Comparison.reads]) ?_
      rcases at_ with ⟨kept, none⟩ | ⟨below, acts, move⟩
      · rw [kept]
        refine follows.idle_of_comparing (by simp [here]) ?_
        rw [here]
        rintro ⟨⟩
        exact none _ rfl
      · cases acts
        exact move.pc_of_leaveRead.2
  | visit visits =>
      refine .of_idle (by simp [visits.reads_eq.2]) ?_
      rcases at_ with ⟨kept, -⟩ | ⟨below, acts, -⟩
      · exact kept ▸ follows.idle_of_comparing visits.ne_idle.1 (by simp [visits.reads_eq.1])
      · cases acts
  | dropped here | returned here =>
      have idle : (s.stores x).pc t = .idle :=
        follows.idle_of_comparing (by simp [here]) (by simp [here, Comparison.reads])
      refine .of_idle (by simp [Comparison.reads]) ?_
      rcases at_ with ⟨kept, -⟩ | ⟨below, acts, move⟩
      · rw [kept, idle]
      · cases acts
        rw [move.pc_of_dropRead, idle]

theorem owned_preserved (stepped : s.step eq action = some next)
    (registered : (s.stores x).Registered) (guard : ReadGuard Thread)
    (live : guard ∈ (next.stores x).readGuards) : guard.kind = .container ∧
      (x, guard.id) ∈ (next.phases guard.holder).guards ∧
      (next.stores x).slots guard.holder = some guard.count := by
  have turns := moves_of_step stepped
  rcases moves_at stepped x with ⟨same, none⟩ | ⟨below, acts, move⟩
  · rw [same] at live ⊢
    obtain ⟨kind, member, slot⟩ := follows.owned x guard live
    refine ⟨kind, turns.guards_stay member ?_, slot⟩
    rintro rfl
    exact none _ rfl
  · rcases move.readGuard_before (follows.nodup x) live with
      ⟨before, kept⟩ | ⟨count, call, rfl, here, named, rfl⟩ | ⟨sent, before, iterator⟩
    · obtain ⟨kind, member, slot⟩ := follows.owned x guard before
      refine ⟨kind, turns.guards_stay member ?_, move.slots_stay registered slot⟩
      rintro rfl
      cases acts
      exact kept rfl
    · -- The comparison's own `dirty_ref` has just returned it.
      have reads := follows.reads_of_inRead (t := guard.holder) (x := x) (by rw [here]; rfl)
      have comparing : s.phases guard.holder ≠ .idle := fun idle => by
        rw [idle] at reads
        cases reads
      have opened : ((s.stores x).pc guard.holder).opened = some guard.id := by
        rw [here, ← named]
        rfl
      obtain ⟨returned, member⟩ := turns.returns_guard acts comparing opened
      have slot := registered.pointer_slot guard.holder guard.count (by rw [here]; rfl)
      exact ⟨Option.some.inj returned, member, move.slots_stay registered slot⟩
    · cases iterator.symm.trans (follows.owned x sent before).1

theorem dirtyRef_preserved (stepped : s.step eq action = some next)
    (only : action.OnlyCompares s) (call : ReadCall)
    (runs : ((next.stores x).pc t).readCall = some call) : call.method = .dirtyRef := by
  rcases moves_at stepped x with ⟨same, -⟩ | ⟨below, acts, move⟩
  · exact follows.dirtyRef x t call (same ▸ runs)
  · rcases move.readCall_of_next runs with before | rfl
    · exact follows.dirtyRef x t call before
    · exact ((moves_of_step stepped).calls_dirtyRef only acts).1

theorem single_preserved (stepped : s.step eq action = some next)
    (only : action.OnlyCompares s) (call : WriteCall)
    (runs : ((next.stores x).pc t).writeCall = some call) : call.method.handsOut = none := by
  rcases moves_at stepped x with ⟨same, -⟩ | ⟨below, acts, move⟩
  · exact follows.single x t call (same ▸ runs)
  · rcases move.writeCall_of_next runs with before | rfl
    · exact follows.single x t call before
    · exact (moves_of_step stepped).calls_single only acts

theorem preserved (stepped : s.step eq action = some next) (atOnePlace : action.AtOnePlace s)
    (only : action.OnlyCompares s) (registered : ∀ x, (s.stores x).Registered)
    (identified : ∀ x, (s.stores x).Identified) : next.Follows where
  placed t x := by
    rcases (moves_of_step stepped).turns t with ⟨same, keeps⟩ | turn
    · exact follows.allows_of_same stepped only same keeps
    · exact follows.allows_of_turns stepped atOnePlace turn
  dirtyRef _ _ := follows.dirtyRef_preserved stepped only
  single _ _ := follows.single_preserved stepped only
  owned x := follows.owned_preserved stepped (registered x)
  nodup x := by
    rcases moves_at stepped x with ⟨same, -⟩ | ⟨below, -, move⟩
    · exact same ▸ follows.nodup x
    · exact move.nodup_preserved (identified x) (follows.nodup x)
  unguarded x := by
    rcases moves_at stepped x with ⟨same, -⟩ | ⟨below, -, move⟩
    · exact same ▸ follows.unguarded x
    · exact move.writeGuards_eq_nil (follows.unguarded x) (follows.single x)

end Follows

variable {contents : Index → List V}

theorem follows_of_reachable (reachable : (comparisons Thread w eq contents).Reachable s) :
    s.Follows := by
  refine reachable.invariant Follows (fun _ start => start ▸ .new contents) ?_
  rintro s action next prior follows ⟨only, atOnePlace, stepped⟩
  have below x := container_reachable prior.of_restrict x
  exact follows.preserved stepped atOnePlace only (fun x => State.registered_of_reachable (below x))
    fun x => State.identified_of_reachable (below x)

/-- A schedule that only compares and writes. -/
theorem reachable_of_schedule [Fintype Index] [DecidableEq V]
    {actions : List (VecAction Index Thread V)}
    (executed : System.execute (System.guarded (Vecs.step eq) fun now action =>
      action.OnlyCompares now ∧ action.AtOnePlace now) (.new Thread w contents) actions = some s) :
    (comparisons Thread w eq contents).Reachable s := by
  have reachable := System.reachable_of_execute_guarded executed
  refine System.Reachable.mono ?_ ?_ reachable
  · exact fun _ start => start
  · rintro now action next ⟨⟨only, atOnePlace⟩, stepped⟩
    exact ⟨only, atOnePlace, stepped⟩

end Vecs

end DarkStd.Sync
