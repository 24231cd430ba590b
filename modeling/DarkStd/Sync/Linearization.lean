import DarkStd.Sync.History
import DarkStd.Sync.Methods

/-!
# Linearizability

The order in which the sections are opened is a sequential execution of the
calls: a section is opened between its call and the end of its call, so a call
that has ended before another is made comes first.
-/

namespace DarkStd.Sync

open DarkStd.Semantics

namespace Store

variable {C Thread : Type} {methods : Interface C} {w : Nat}

/-- The order of the sections respects the order of the calls. -/
structure Ordered (s : Store methods Thread w) : Prop where
  called_lt : ∀ id op, .called id op ∈ s.events → id < s.sync.nextCall
  called : ∀ e ∈ s.history, .called e.id e.op ∈ s.events
  running : ∀ t id call, (s.sync.pc t).call = some id → s.running t = some call →
    .called id call.op ∈ s.events
  ended : ∀ id outcome, .ended id outcome ∈ s.events →
    ∃ e ∈ s.history, e.id = id ∧ e.outcome = some outcome
  order : ∀ before after id op ended outcome,
    s.events = before ++ .called id op :: after → .ended ended outcome ∈ before →
      ∀ earlier later, s.order = earlier ++ id :: later → ended ∈ earlier
  pending : ∀ e ∈ s.history, e.outcome = none → ∃ t, (s.sync.pc t).opened = some e.id

theorem Ordered.new (content : C) : Ordered (.new methods Thread w content) := by
  constructor <;> simp [Store.new, State.new, Pc.call]

variable [DecidableEq Thread] {kind : Kind} {first : C} {s next : Store methods Thread w}
variable {action : StoreAction methods Thread}

/-- A recorded section was there before, or a running call has opened it. -/
theorem Moves.history_of_next (move : Moves kind s action next) {e : Section methods}
    (member : e ∈ next.history) :
    (∃ old ∈ s.history, old.id = e.id ∧ old.op = e.op) ∨
      ∃ t call, (s.sync.pc t).call = some e.id ∧ s.running t = some call ∧ call.op = e.op := by
  have recorded {other : Store methods Thread w} {id : Nat}
      {change : Section methods → Section methods} (same : other.history = s.history)
      (member : e ∈ (other.record id change).history)
      (keeps : ∀ e, (change e).id = e.id ∧ (change e).op = e.op) :
      ∃ old ∈ s.history, old.id = e.id ∧ old.op = e.op := by
    obtain ⟨old, listed, rfl⟩ := mem_record.mp member
    refine ⟨old, same ▸ listed, ?_⟩
    split
    · exact ⟨(keeps old).1.symm, (keeps old).2.symm⟩
    · exact ⟨rfl, rfl⟩
  cases move with
  | opens move opened running =>
      rcases mem_opens.mp member with member | rfl
      · exact .inl ⟨e, member, rfl, rfl⟩
      · exact .inr ⟨_, _, move.call_of_step (Pc.call_of_opened opened), running, rfl⟩
  | access | leaveRead | leaveWrite | look | use =>
      exact .inl (recorded (by rfl) member fun e => ⟨rfl, rfl⟩)
  | _ => exact .inl ⟨e, member, rfl, rfl⟩

/-- What has been recorded of the end of a section stays. -/
theorem Moves.outcome_stays (move : Moves kind s action next) (recorded : Recorded first s)
    {e : Section methods} {outcome : Outcome methods.Result} (member : e ∈ s.history)
    (ended : e.outcome = some outcome) :
    ∃ other ∈ next.history, other.id = e.id ∧ other.outcome = some outcome := by
  have kept {other : Store methods Thread w} {id : Nat}
      {change : Section methods → Section methods} (same : other.history = s.history)
      (keeps : e.id = id → (change e).id = e.id ∧ (change e).outcome = e.outcome) :
      ∃ new ∈ (other.record id change).history, new.id = e.id ∧ new.outcome = some outcome := by
    refine ⟨_, mem_record.mpr ⟨e, same ▸ member, rfl⟩, ?_⟩
    split
    case isTrue mine => exact ⟨(keeps mine).1, (keeps mine).2.trans ended⟩
    case isFalse => exact ⟨rfl, ended⟩
  -- A section that is left had not ended before.
  have running {t : Thread} {id : Nat} {call : Running methods}
      (here : (s.sync.pc t).opened = some id) (found : s.running t = some call)
      (mine : e.id = id) : False := by
    have facts := recorded.opened t id here call found e member mine
    cases facts.2.1.symm.trans ended
  cases move with
  | opens => exact ⟨e, mem_opens.mpr (.inl member), rfl, ended⟩
  | access | look | use => exact kept (by rfl) fun _ => ⟨rfl, rfl⟩
  | leaveRead here found =>
      exact kept (by rfl) fun mine => (running (by rw [here]; rfl) found mine).elim
  | leaveWrite here found =>
      exact kept (by rfl) fun mine => (running (by rw [here]; rfl) found mine).elim
  | _ => exact ⟨e, member, rfl, ended⟩

/-- What a step adds to the events and to the order of the sections. -/
theorem Moves.events_of_next (move : Moves kind s action next) :
    (next.events = s.events ∧ next.order = s.order) ∨
      (next.events = s.events ∧ ∃ id, next.order = s.order ++ [id]) ∨
      (∃ op, next.events = s.events ++ [.called s.sync.nextCall op] ∧ next.order = s.order ∧
        next.sync.nextCall = s.sync.nextCall + 1) ∨
      ∃ t id op outcome, next.events = s.events ++ [.ended id outcome] ∧ next.order = s.order ∧
        (s.sync.pc t).opened = some id ∧ s.running t = some ⟨op, .done outcome⟩ ∧
        ∀ e ∈ s.history, e.id = id → ∃ e ∈ next.history, e.id = id ∧ e.outcome = some outcome := by
  cases move with
  | read move =>
      refine .inr (.inr (.inl ⟨_, rfl, rfl, ?_⟩))
      cases move
      rfl
  | write move =>
      refine .inr (.inr (.inl ⟨_, rfl, rfl, ?_⟩))
      cases move
      rfl
  | opens => exact .inr (.inl ⟨rfl, _, opens_order ..⟩)
  | leaveRead here running =>
      refine .inr (.inr (.inr ⟨_, _, _, _, rfl, order_record fun _ => rfl, by rw [here]; rfl,
        running, fun e member mine => ⟨_, mem_record.mpr ⟨e, member, rfl⟩, ?_⟩⟩))
      rw [if_pos mine]
      exact ⟨mine, rfl⟩
  | leaveWrite here running =>
      refine .inr (.inr (.inr ⟨_, _, _, _, rfl, order_record fun _ => rfl, by rw [here]; rfl,
        running, fun e member mine => ⟨_, mem_record.mpr ⟨e, member, rfl⟩, ?_⟩⟩))
      rw [if_pos mine]
      exact ⟨mine, rfl⟩
  | access | look | use => exact .inl ⟨rfl, order_record fun _ => rfl⟩
  | _ => exact .inl ⟨rfl, rfl⟩

/-- A section that has not ended had not ended before, or it has just been opened. -/
theorem Moves.unended_of_next (move : Moves kind s action next) {e : Section methods}
    (member : e ∈ next.history) (unended : e.outcome = none) :
    (∃ old ∈ s.history, old.id = e.id ∧ old.outcome = none) ∨
      ∃ t, (next.sync.pc t).opened = some e.id := by
  have recorded {other : Store methods Thread w} {id : Nat}
      {change : Section methods → Section methods} (same : other.history = s.history)
      (member : e ∈ (other.record id change).history)
      (keeps : ∀ e, (change e).outcome = none → (change e).id = e.id ∧ e.outcome = none) :
      ∃ old ∈ s.history, old.id = e.id ∧ old.outcome = none := by
    obtain ⟨old, listed, rfl⟩ := mem_record.mp member
    refine ⟨old, same ▸ listed, ?_⟩
    split at unended
    case isTrue mine =>
      rw [if_pos mine]
      exact ⟨(keeps old unended).1.symm, (keeps old unended).2⟩
    case isFalse other =>
      rw [if_neg other]
      exact ⟨rfl, unended⟩
  cases move with
  | opens move opened =>
      rcases mem_opens.mp member with member | rfl
      · exact .inl ⟨e, member, rfl, unended⟩
      · exact .inr ⟨_, opened⟩
  | access | look | use => exact .inl (recorded (by rfl) member fun e none => ⟨rfl, none⟩)
  | leaveRead | leaveWrite =>
      exact .inl (recorded (by rfl) member fun e none => nomatch none)
  | _ => exact .inl ⟨e, member, rfl, unended⟩

/-- A section that a running call has open stays open, or it has ended. -/
theorem Moves.opened_kept (move : Moves kind s action next) {t : Thread} {id : Nat}
    (opened : (s.sync.pc t).opened = some id) :
    (next.sync.pc t).opened = some id ∨ ∀ e ∈ next.history, e.id = id → e.outcome ≠ none := by
  have stays {sync : State Thread w} {step : Action Thread}
      (below : State.Moves kind s.sync step sync)
      (other : ∀ returned, step ≠ .leaveRead t returned)
      (another : ∀ returned, step ≠ .leaveWrite t returned) : (sync.pc t).opened = some id := by
    have isOpen : (s.sync.pc t).opened ≠ none := by simp [opened]
    rcases below.opened_stays isOpen with same | ⟨-, ⟨returned, leaves⟩ | ⟨returned, leaves⟩⟩
    · exact same ▸ opened
    · exact absurd leaves (other returned)
    · exact absurd leaves (another returned)
  have ended {outcome : Outcome methods.Result} {sync : State Thread w} :
      ∀ e ∈ (s.ends t id outcome sync).history, e.id = id → e.outcome ≠ none := by
    intro e member mine
    obtain ⟨old, listed, rfl⟩ := mem_record.mp member
    split at mine
    case isTrue same => simp [same]
    case isFalse other => exact absurd mine other
  cases move with
  | read move | write move | walk move | opens move | dropRead move | dropWrite move | send move =>
      exact .inl (stays move (by simp) (by simp))
  | access | look | use => exact .inl opened
  | @leaveRead u op outcome call count returned sync here running hands move =>
      by_cases actor : t = u
      · subst actor
        rw [here] at opened
        obtain rfl := Option.some.inj opened
        exact .inr ended
      · exact .inl (stays move (by simpa using Ne.symm actor) (by simp))
  | @leaveWrite u op outcome call returned sync here running hands move =>
      by_cases actor : t = u
      · subst actor
        rw [here] at opened
        obtain rfl := Option.some.inj opened
        exact .inr ended
      · exact .inl (stays move (by simp) (by simpa using Ne.symm actor))

theorem Moves.nextCall_le (move : Moves kind s action next) :
    s.sync.nextCall ≤ next.sync.nextCall := by
  cases move with
  | read move | write move | walk move | opens move | leaveRead _ _ _ move | leaveWrite _ _ _ move
  | dropRead move | dropWrite move | send move => exact move.nextCall_le
  | access | look | use => exact Nat.le_refl _

theorem Moves.events_mono (move : Moves kind s action next) {event : Event methods}
    (member : event ∈ s.events) : event ∈ next.events := by
  rcases move.events_of_next with
    ⟨events, -⟩ | ⟨events, -⟩ | ⟨_, events, -⟩ | ⟨_, _, _, _, events, -⟩
  · exact events ▸ member
  · exact events ▸ member
  · exact events ▸ List.mem_append_left _ member
  · exact events ▸ List.mem_append_left _ member

/-- A method that runs has just been called, or it was running before. -/
theorem Moves.running_of_next (move : Moves kind s action next) {u : Thread} {id : Nat}
    {call : Running methods} (called : (next.sync.pc u).call = some id)
    (found : next.running u = some call) :
    .called id call.op ∈ next.events ∨
      ∃ old, s.running u = some old ∧ old.op = call.op ∧ (s.sync.pc u).call = some id := by
  have calls {t : Thread} {op : methods.Op} {sync : State Thread w}
      (now : (sync.pc t).call = some s.sync.nextCall)
      (others : ∀ u, u ≠ t → sync.pc u = s.sync.pc u)
      (called : (sync.pc u).call = some id) (found : (s.calls t op sync).running u = some call) :
      .called id call.op ∈ s.events ++ [.called s.sync.nextCall op] ∨
        ∃ old, s.running u = some old ∧ old.op = call.op ∧ (s.sync.pc u).call = some id := by
    by_cases actor : u = t
    · subst actor
      obtain rfl := Option.some.inj (now.symm.trans called)
      obtain rfl := Option.some.inj ((calls_running_self u op).symm.trans found)
      exact .inl (List.mem_append_right _ (List.mem_singleton_self _))
    · exact .inr
        ⟨call, (calls_running_of_ne op actor).symm.trans found, rfl, others u actor ▸ called⟩
  have ends {t : Thread} {sync : State Thread w} (left : (sync.pc t).call = none)
      (others : ∀ u, u ≠ t → sync.pc u = s.sync.pc u) (called : (sync.pc u).call = some id)
      (found : Function.update s.running t none u = some call) :
      ∃ old, s.running u = some old ∧ old.op = call.op ∧ (s.sync.pc u).call = some id := by
    have actor : u ≠ t := by
      rintro rfl
      cases left.symm.trans called
    rw [Function.update_of_ne actor] at found
    exact ⟨call, found, rfl, others u actor ▸ called⟩
  cases move with
  | read move =>
      cases move
      exact calls (by rw [State.goto_pc_self]; rfl)
        (fun v actor => State.goto_pc_of_ne _ _ _ _ actor) called found
  | write move =>
      cases move
      exact calls (by rw [State.goto_pc_self]; rfl)
        (fun v actor => State.goto_pc_of_ne _ _ _ _ actor) called found
  | walk move | opens move => exact .inr ⟨call, found, rfl, move.call_of_step called⟩
  | @access t position running after rest here was =>
      have found : Function.update s.running t (some ⟨running.op, rest⟩) u = some call := found
      right
      by_cases actor : u = t
      · subst actor
        rw [Function.update_self] at found
        obtain rfl := Option.some.inj found
        exact ⟨running, was, rfl, called⟩
      · rw [Function.update_of_ne actor] at found
        exact ⟨call, found, rfl, called⟩
  | leaveRead _ _ _ move =>
      right
      cases move <;> exact ends (by rw [State.goto_pc_self]; rfl)
        (fun v actor => State.goto_pc_of_ne _ _ _ _ actor) called found
  | leaveWrite _ _ _ move =>
      right
      cases move <;> exact ends (by rw [State.goto_pc_self]; rfl)
        (fun v actor => State.goto_pc_of_ne _ _ _ _ actor) called found
  | look | use => exact .inr ⟨call, found, rfl, called⟩
  | dropRead move | dropWrite move | send move =>
      refine .inr ⟨call, found, rfl, move.call_of_old ?_ called⟩
      cases move
      rfl

namespace Ordered

variable (ordered : Ordered s) (recorded : Recorded first s) (move : Moves kind s action next)
include ordered move

theorem called_lt_preserved (id : Nat) (op : methods.Op) (called : .called id op ∈ next.events) :
    id < next.sync.nextCall := by
  have old (member : .called id op ∈ s.events) : id < next.sync.nextCall :=
    Nat.lt_of_lt_of_le (ordered.called_lt id op member) move.nextCall_le
  rcases move.events_of_next with ⟨events, -⟩ | ⟨events, -⟩ | ⟨new, events, -, more⟩ |
    ⟨t, ended, _, outcome, events, -⟩
  · exact old (events ▸ called)
  · exact old (events ▸ called)
  · rw [events] at called
    rcases List.mem_append.mp called with member | single
    · exact old member
    · obtain ⟨rfl, -⟩ := Event.called.inj (List.mem_singleton.mp single)
      rw [more]
      exact Nat.lt_succ_self _
  · rw [events] at called
    rcases List.mem_append.mp called with member | single
    · exact old member
    · cases List.mem_singleton.mp single

theorem called_preserved (e : Section methods) (member : e ∈ next.history) :
    .called e.id e.op ∈ next.events := by
  rcases move.history_of_next member with ⟨old, member, id, op⟩ | ⟨t, call, called, running, op⟩
  · exact move.events_mono (id ▸ op ▸ ordered.called old member)
  · exact move.events_mono (op ▸ ordered.running t e.id call called running)

theorem running_preserved (u : Thread) (id : Nat) (call : Running methods)
    (called : (next.sync.pc u).call = some id) (found : next.running u = some call) :
    .called id call.op ∈ next.events := by
  rcases move.running_of_next called found with new | ⟨old, running, op, before⟩
  · exact new
  · exact move.events_mono (op ▸ ordered.running u id old before running)

include recorded in
theorem ended_preserved (id : Nat) (outcome : Outcome methods.Result)
    (member : .ended id outcome ∈ next.events) :
    ∃ e ∈ next.history, e.id = id ∧ e.outcome = some outcome := by
  have old (member : .ended id outcome ∈ s.events) :
      ∃ e ∈ next.history, e.id = id ∧ e.outcome = some outcome := by
    obtain ⟨e, listed, mine, ended⟩ := ordered.ended id outcome member
    obtain ⟨other, listed, same, ended⟩ := move.outcome_stays recorded listed ended
    exact ⟨other, listed, same.trans mine, ended⟩
  rcases move.events_of_next with ⟨events, -⟩ | ⟨events, -⟩ | ⟨_, events, -⟩ |
    ⟨t, ending, op, result, events, -, here, running, ends⟩
  · exact old (events ▸ member)
  · exact old (events ▸ member)
  · rw [events] at member
    rcases List.mem_append.mp member with member | single
    · exact old member
    · cases List.mem_singleton.mp single
  · rw [events] at member
    rcases List.mem_append.mp member with member | single
    · exact old member
    · obtain ⟨rfl, rfl⟩ := Event.ended.inj (List.mem_singleton.mp single)
      rcases openRead_or_openWrite here with ⟨-, reads⟩ | ⟨-, writes⟩
      · obtain ⟨e, listed, mine, -⟩ := recorded.openRead id reads
        exact ends e listed mine
      · obtain ⟨before, e, last, mine, -⟩ := recorded.openWrite id writes
        exact ends e (last ▸ List.mem_append_right _ (List.mem_singleton_self _)) mine

include recorded in
theorem order_preserved (before after : List (Event methods)) (id : Nat) (op : methods.Op)
    (ended : Nat) (outcome : Outcome methods.Result)
    (split : next.events = before ++ .called id op :: after)
    (earlier : .ended ended outcome ∈ before) (first second : List Nat)
    (place : next.order = first ++ id :: second) : ended ∈ first := by
  rcases move.events_of_next with ⟨events, order⟩ | ⟨events, new, order⟩ |
    ⟨called, events, order, -⟩ | ⟨t, ending, _, result, events, order, -⟩
  · exact ordered.order before after id op ended outcome (events ▸ split) earlier first second
      (order ▸ place)
  · rw [events] at split
    rw [order] at place
    rcases concat_eq_append_cons place with ⟨rfl, -, -⟩ | ⟨rest, place⟩
    · -- The section is opened now, after everything that has ended.
      obtain ⟨e, member, rfl, -⟩ := ordered.ended ended outcome
        (split ▸ List.mem_append_left _ earlier)
      exact List.mem_map_of_mem member
    · exact ordered.order before after id op ended outcome split earlier first rest place
  · rw [events] at split
    rw [order] at place
    rcases concat_eq_append_cons split with ⟨-, called, -⟩ | ⟨rest, split⟩
    · -- The call is made now, so its section is not on record.
      obtain ⟨rfl, -⟩ := Event.called.inj called
      have member : s.sync.nextCall ∈ s.order := place ▸ List.mem_append_right _ List.mem_cons_self
      obtain ⟨e, member, same⟩ := List.mem_map.mp member
      exact absurd same (Nat.ne_of_lt (recorded.id_lt e member))
    · exact ordered.order before rest id op ended outcome split earlier first second place
  · rw [events] at split
    rw [order] at place
    rcases concat_eq_append_cons split with ⟨-, called, -⟩ | ⟨rest, split⟩
    · cases called
    · exact ordered.order before rest id op ended outcome split earlier first second place

theorem pending_preserved (e : Section methods) (member : e ∈ next.history)
    (unended : e.outcome = none) : ∃ t, (next.sync.pc t).opened = some e.id := by
  rcases move.unended_of_next member unended with ⟨old, listed, same, before⟩ | opened
  · obtain ⟨t, opened⟩ := ordered.pending old listed before
    rcases move.opened_kept opened with kept | ended
    · exact ⟨t, same ▸ kept⟩
    · exact absurd unended (ended e member same.symm)
  · exact opened

include recorded in
theorem preserved : Ordered next where
  called_lt := ordered.called_lt_preserved move
  called := ordered.called_preserved move
  running := ordered.running_preserved move
  ended := ordered.ended_preserved recorded move
  order := ordered.order_preserved recorded move
  pending := ordered.pending_preserved move

end Ordered

/-- The invariants of a container with its content. -/
structure Invariants (first : C) (s : Store methods Thread w) : Prop where
  sound : s.sync.Sound
  identified : s.sync.Identified
  recorded : Recorded first s
  ordered : Ordered s

theorem invariants_of_reachable {content : C}
    (reachable : (store kind methods Thread w content).Reachable s) : Invariants content s := by
  refine reachable.invariant (Invariants content) ?_ fun s action next _ invariants stepped => ?_
  · rintro _ rfl
    exact ⟨.new, .new, .new content, .new content⟩
  · have move := moves_of_step stepped
    obtain ⟨sound, identified, recorded, ordered⟩ := invariants
    exact ⟨move.sync_preserved State.Sound (fun _ _ _ sound below => sound.preserved below) sound,
      move.sync_preserved State.Identified (fun _ _ _ holds below => holds.preserved below)
        identified,
      recorded.preserved sound identified move, ordered.preserved recorded move⟩

/-- The record is a sequential execution of the calls on the collection inside,
from the given content, that every caller can take for what has happened. -/
structure Linear (first : C) (s : Store methods Thread w) : Prop where
  /-- Each section starts from what the one before it has left. -/
  chained : Chained first (s.history.map Section.span) s.content
  distinct : s.order.Nodup
  /-- A call that has ended did what its method does as one operation, followed
  by what was done through the guard it returned. -/
  sequential : ∀ e ∈ s.history, e.Sequential
  /-- A write that has not ended is the last. -/
  pending : ∀ before e after, s.history = before ++ e :: after → e.outcome = none →
    (∃ op, e.op = .write op) → after = []
  /-- A read and its guard see one content. -/
  constant : ∀ e ∈ s.history, ∀ op, e.op = .read op → e.Constant
  /-- A call that has ended is in the order, with what it was and what it returned. -/
  complete : ∀ id outcome, .ended id outcome ∈ s.events →
    ∃ e ∈ s.history, e.id = id ∧ e.outcome = some outcome ∧ .called id e.op ∈ s.events
  /-- A call that had ended when another was made comes before it. -/
  realTime : ∀ before after id op ended outcome,
    s.events = before ++ .called id op :: after → .ended ended outcome ∈ before →
      ∀ earlier later, s.order = earlier ++ id :: later → ended ∈ earlier

theorem linear_of_reachable {content : C}
    (reachable : (store kind methods Thread w content).Reachable s) : s.Linear content := by
  obtain ⟨-, -, recorded, ordered⟩ := invariants_of_reachable reachable
  refine ⟨recorded.chained, recorded.nodup, recorded.sequential, ?_, recorded.constant, ?_,
    ordered.order⟩
  · intro before e after split unended ⟨op, write⟩
    have listed : e ∈ s.history := split ▸ List.mem_append_right _ List.mem_cons_self
    obtain ⟨t, opened⟩ := ordered.pending e listed unended
    rcases openRead_or_openWrite opened with ⟨-, reads⟩ | ⟨-, writes⟩
    · obtain ⟨e', listed', mine, -, op', read⟩ := recorded.openRead e.id reads
      obtain rfl := recorded.eq_of_id listed' listed mine
      cases read.symm.trans write
    · obtain ⟨init, last, history, mine, -⟩ := recorded.openWrite e.id writes
      rcases concat_eq_append_cons (history.symm.trans split) with ⟨-, -, none⟩ | ⟨rest, place⟩
      · exact none
      · have earlier : e ∈ init := place ▸ List.mem_append_right _ List.mem_cons_self
        exact absurd mine.symm (id_ne_last recorded.nodup history e earlier)
  · intro id outcome member
    obtain ⟨e, listed, rfl, ended⟩ := ordered.ended id outcome member
    exact ⟨e, listed, rfl, ended, ordered.called e listed⟩

end Store

/-- Linearizability of the four container types, for any threads and any
interleaving of their atomic steps and of the accesses to the content: the
sections, in the order in which they are opened, are an execution of whole
operations, one at a time, on a list or a finite map, with the same results,
and the order respects that of the calls. -/
theorem containers_linearizable {Thread : Type} [DecidableEq Thread] {w : Nat} :
    (∀ (V : Type) (eq : V → V → Bool) (content : List V) (s : Store (vecMethods V eq) Thread w),
      (store .vec (vecMethods V eq) Thread w content).Reachable s → s.Linear content) ∧
    ∀ kind : Kind, kind ≠ .vec → ∀ (K V : Type) [DecidableEq K] (panics : Map.Panics K V)
      (content : Map K V) (s : Store (mapMethods K V panics) Thread w),
      (store kind (mapMethods K V panics) Thread w content).Reachable s → s.Linear content :=
  ⟨fun _ _ _ _ => Store.linear_of_reachable,
    fun _ _ _ _ _ _ _ _ => Store.linear_of_reachable⟩

/-- A `push` by one thread and then `len` by another. -/
theorem push_then_len_linearizable :
    ∃ s : Store (vecMethods Nat (· == ·)) (Fin 2) 64,
      s.content = [7] ∧ s.order = [0, 1] ∧ s.Linear [] := by
  obtain ⟨s, reachable, met⟩ := System.exists_reachable_of_execute
    (fun s : Store (vecMethods Nat (· == ·)) (Fin 2) 64 =>
      decide (s.content = [7] ∧ s.order = [0, 1]))
    (show (System.execute (Store.step .vec) (.new (vecMethods Nat (· == ·)) (Fin 2) 64 [])
      [.write 0 (.push 7), .step 0, .step 0, .step 0, .step 0, .step 0, .access 0, .leave 0,
        .step 0, .step 0, .read 1 .len, .step 1, .step 1, .step 1, .step 1, .step 1, .step 1,
        .access 1, .leave 1]).any _ = true by decide +kernel)
  obtain ⟨content, order⟩ := of_decide_eq_true met
  exact ⟨s, content, order, containers_linearizable.1 Nat _ [] s reachable⟩

end DarkStd.Sync
