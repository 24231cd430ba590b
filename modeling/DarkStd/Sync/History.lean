import DarkStd.Sync.Sections

/-!
# What is recorded of the sections

While a read section is open the content does not change, and while a write
section is open no other section is opened, so the record of it is the last. So
each section starts from what the one before it has left, and what is left of a
running body, on the content as it is now, computes what the whole body would
have computed at its place in the order.
-/

namespace DarkStd.Sync

open DarkStd.Semantics

namespace Section

variable {C : Type} {methods : Interface C}

/-- The contents at the ends of a section. -/
def span (e : Section methods) : C × C := (e.start, e.finish)

/-- The body has computed what the method computes as one operation on the
content at the start, and each use of the guard went on from there. -/
def Sequential (e : Section methods) : Prop :=
  ∀ outcome, e.outcome = some outcome →
    ∃ middle, methods.apply e.op e.start = (middle, outcome) ∧ Chained middle e.uses e.finish

/-- The section and the uses of its guard see one content and change nothing. -/
def Constant (e : Section methods) : Prop :=
  e.finish = e.start ∧ ∀ access ∈ e.uses, access = (e.start, e.start)

end Section

/-- What is left of a method is the rest of a read or of a write. -/
def Running.Fits {C : Type} {methods : Interface C} (call : Running methods)
    (reads : Bool) : Prop :=
  if reads then (∃ op, call.op = .read op) ∧ call.rest.ReadOnly else ∃ op, call.op = .write op

namespace Store

variable {C Thread : Type} {methods : Interface C} {w : Nat}

/-- The ids of the sections, in the order in which they were opened. -/
def order (s : Store methods Thread w) : List Nat := s.history.map Section.id

/-- What the record says of the sections of a container whose content was
`first` when it was constructed. -/
structure Recorded (first : C) (s : Store methods Thread w) : Prop where
  chained : Chained first (s.history.map Section.span) s.content
  nodup : s.order.Nodup
  id_lt : ∀ e ∈ s.history, e.id < s.sync.nextCall
  sequential : ∀ e ∈ s.history, e.Sequential
  constant : ∀ e ∈ s.history, ∀ op, e.op = .read op → e.Constant
  running : ∀ t id, (s.sync.pc t).call = some id → ∃ call, s.running t = some call ∧
    call.Fits (s.sync.pc t).inRead
  unopened : ∀ t id, (s.sync.pc t).call = some id → (s.sync.pc t).opened = none →
    id ∉ s.order ∧ ∀ call, s.running t = some call → call.rest = methods.body call.op
  opened : ∀ t id, (s.sync.pc t).opened = some id → ∀ call, s.running t = some call →
    ∀ e ∈ s.history, e.id = id → e.op = call.op ∧ e.outcome = none ∧ e.uses = [] ∧
      call.rest.run s.content = methods.apply e.op e.start
  openRead : ∀ id, s.sync.OpenRead id → ∃ e ∈ s.history, e.id = id ∧ e.start = s.content ∧
    ∃ op, e.op = .read op
  openWrite : ∀ id, s.sync.OpenWrite id → ∃ before e, s.history = before ++ [e] ∧ e.id = id ∧
    ∃ op, e.op = .write op

theorem Recorded.new (content : C) :
    Recorded content (.new methods Thread w content) := by
  constructor <;> simp [Store.new, State.new, order, Pc.call, Pc.opened, State.OpenRead,
    State.OpenWrite]

variable {first : C} {s : Store methods Thread w}

/-- Two sections on record have different ids. -/
theorem Recorded.eq_of_id (recorded : Recorded first s) {e other : Section methods}
    (left : e ∈ s.history) (right : other ∈ s.history) (same : e.id = other.id) : e = other :=
  List.inj_on_of_nodup_map recorded.nodup left right same

section Record

variable {id : Nat} {change : Section methods → Section methods}

theorem mem_record {e : Section methods} :
    e ∈ (s.record id change).history ↔
      ∃ old ∈ s.history, (if old.id = id then change old else old) = e := List.mem_map

theorem order_record (keeps : ∀ e, (change e).id = e.id) :
    (s.record id change).order = s.order := by
  unfold order record
  rw [List.map_map]
  refine List.map_congr_left fun e _ => ?_
  rw [Function.comp_apply]
  split
  · exact keeps e
  · rfl

/-- What is recorded leaves the contents at the ends of a section as they were. -/
theorem span_record (keeps : ∀ e ∈ s.history, e.id = id → (change e).span = e.span) :
    (s.record id change).history.map Section.span = s.history.map Section.span := by
  unfold record
  rw [List.map_map]
  refine List.map_congr_left fun e member => ?_
  rw [Function.comp_apply]
  split
  case isTrue same => exact keeps e member same
  case isFalse => rfl

/-- The last section has an id of its own. -/
theorem id_ne_last (nodup : s.order.Nodup) {before : List (Section methods)}
    {e : Section methods} (last : s.history = before ++ [e]) :
    ∀ old ∈ before, old.id ≠ e.id := by
  intro old member
  rw [order, last, List.map_append, List.map_singleton] at nodup
  obtain ⟨-, -, apart⟩ := List.nodup_append.mp nodup
  exact apart old.id (List.mem_map_of_mem member) e.id (List.mem_singleton_self _)

/-- The last section is the only one that changes. -/
theorem record_last (nodup : s.order.Nodup) {before : List (Section methods)} {e : Section methods}
    (last : s.history = before ++ [e]) (same : e.id = id) :
    (s.record id change).history = before ++ [change e] := by
  have others : ∀ old ∈ before, old.id ≠ id := same ▸ id_ne_last nodup last
  have kept : (before.map fun old => if old.id = id then change old else old) = before :=
    (List.map_congr_left fun old member => if_neg (others old member)).trans (List.map_id' before)
  unfold record
  rw [last, List.map_append, List.map_singleton, if_pos same, kept]

/-- Recording what is so already changes nothing. -/
theorem record_eq_self (same : ∀ e ∈ s.history, e.id = id → change e = e) :
    s.record id change = s := by
  have kept : (s.history.map fun e => if e.id = id then change e else e) = s.history := by
    refine (List.map_congr_left fun e member => ?_).trans (List.map_id' _)
    split
    case isTrue mine => exact same e member mine
    case isFalse => rfl
  unfold record
  rw [kept]

end Record

/-- The one open write section changes the content. -/
theorem Recorded.of_write (recorded : Recorded first s) (locked : s.sync.Locked)
    (drained : s.sync.Drained) {id : Nat} (isOpen : s.sync.OpenWrite id) {content : C}
    {change : Section methods → Section methods} {running : Thread → Option (Running methods)}
    (keeps : ∀ e, (change e).id = e.id ∧ (change e).op = e.op ∧ (change e).start = e.start ∧
      (change e).finish = content)
    (sequential : ∀ e ∈ s.history, e.id = id → e.finish = s.content → e.Sequential →
      (change e).Sequential)
    (calls : ∀ u position, (s.sync.pc u).call = some position → ∃ call, running u = some call ∧
      call.Fits (s.sync.pc u).inRead)
    (waiting : ∀ u, (s.sync.pc u).opened = none → running u = s.running u)
    (opened : ∀ u position, (s.sync.pc u).opened = some position → position = id ∧
      ∀ call, running u = some call → ∀ e ∈ s.history, e.id = id →
        (change e).op = call.op ∧ (change e).outcome = none ∧ (change e).uses = [] ∧
          call.rest.run content = methods.apply e.op e.start) :
    Recorded first ({ s with content := content, running := running }.record id change) := by
  obtain ⟨before, e, last, mine, op, write⟩ := recorded.openWrite id isOpen
  have member : e ∈ s.history := last ▸ List.mem_append_right _ (List.mem_singleton_self _)
  have changed : (({ s with content := content, running := running } :
      Store methods Thread w).record id change).history = before ++ [change e] :=
    record_last recorded.nodup last mine
  have chained := recorded.chained
  rw [last, List.map_append, List.map_singleton, chained_concat] at chained
  obtain ⟨chained, finish⟩ := chained
  have mem {e' : Section methods} (member : e' ∈ before ++ [change e]) :
      e' ∈ before ∨ e' = change e := by simpa using member
  have earlier {e' : Section methods} (member : e' ∈ before) : e' ∈ s.history :=
    last ▸ List.mem_append_left _ member
  obtain ⟨id_same, op_same, start_same, finish_same⟩ := keeps e
  have order : (({ s with content := content, running := running } :
      Store methods Thread w).record id change).order = s.order :=
    order_record fun e => (keeps e).1
  constructor
  · rw [changed, List.map_append, List.map_singleton, chained_concat]
    refine ⟨?_, finish_same⟩
    rw [Section.span, start_same]
    exact chained
  · rw [order]
    exact recorded.nodup
  · intro e' member'
    rcases mem (changed ▸ member') with member' | rfl
    · exact recorded.id_lt e' (earlier member')
    · exact id_same.symm ▸ recorded.id_lt e member
  · intro e' member'
    rcases mem (changed ▸ member') with member' | rfl
    · exact recorded.sequential e' (earlier member')
    · exact sequential e member mine finish (recorded.sequential e member)
  · intro e' member' op' read
    rcases mem (changed ▸ member') with member' | rfl
    · exact recorded.constant e' (earlier member') op' read
    · cases (op_same.symm.trans read).symm.trans write
  · exact calls
  · intro u position called closed
    obtain ⟨absent, body⟩ := recorded.unopened u position called closed
    refine ⟨order.symm ▸ absent, fun call found => body call ?_⟩
    exact (waiting u closed).symm.trans found
  · intro u position opens call found e' member' same
    obtain ⟨rfl, facts⟩ := opened u position opens
    rcases mem (changed ▸ member') with member' | rfl
    · exact absurd (same.trans mine.symm) (id_ne_last recorded.nodup last e' member')
    · obtain ⟨op', ended, uses, run⟩ := facts call found e member mine
      exact ⟨op', ended, uses, by rwa [op_same, start_same]⟩
  · intro position reads
    obtain ⟨t, inside⟩ := isOpen.inWriteSection
    exact absurd (State.OpenRead.readSectionOpen reads) (drained.closed inside)
  · intro position writes
    obtain rfl : position = id := State.OpenWrite.unique writes isOpen locked
    exact ⟨before, change e, changed, id_same.trans mine, op, op_same.trans write⟩

/-- A section that has been opened by a call, and not left, is open. -/
theorem openRead_or_openWrite {s : State Thread w} {t : Thread} {id : Nat}
    (here : (s.pc t).opened = some id) :
    ((s.pc t).inRead = true ∧ s.OpenRead id) ∨ ((s.pc t).inRead = false ∧ s.OpenWrite id) := by
  cases at_ : s.pc t with
  | reading call count =>
      rw [at_] at here
      exact .inl ⟨rfl, .inl ⟨t, call, count, at_, Option.some.inj here⟩⟩
  | writing call =>
      rw [at_] at here
      exact .inr ⟨rfl, .inl ⟨t, call, at_, Option.some.inj here⟩⟩
  | _ => simp [at_, Pc.opened] at here

/-- The section of a call that is open beside an open write section is that one. -/
theorem opened_of_openWrite {s : State Thread w} (locked : s.Locked) (drained : s.Drained)
    {id position : Nat} (isOpen : s.OpenWrite id) {u : Thread}
    (opens : (s.pc u).opened = some position) : position = id ∧ (s.pc u).ownsWrite = true := by
  rcases openRead_or_openWrite opens with ⟨-, reads⟩ | ⟨writes, also⟩
  · obtain ⟨t, inside⟩ := isOpen.inWriteSection
    exact absurd reads.readSectionOpen (drained.closed inside)
  · refine ⟨also.unique isOpen locked, ?_⟩
    cases here : s.pc u <;> simp_all [Pc.opened, Pc.inRead, Pc.ownsWrite]

/-- The content is changed through a write guard. -/
theorem Recorded.of_use (recorded : Recorded first s) (locked : s.sync.Locked)
    (drained : s.sync.Drained) {guard : WriteGuard Thread} (live : guard ∈ s.sync.writeGuards)
    (change : C → C) :
    Recorded first
      ({ s with content := change s.content }.record guard.id fun e =>
        { e with
          finish := change s.content
          uses := e.uses ++ [(s.content, change s.content)] }) := by
  have isOpen : s.sync.OpenWrite guard.id := .inr ⟨guard, live, rfl⟩
  refine recorded.of_write locked drained isOpen (fun e => ⟨rfl, rfl, rfl, rfl⟩) ?_
    recorded.running (fun _ _ => rfl) ?_
  · intro e member mine finish sequential outcome ended
    obtain ⟨middle, applied, chained⟩ := sequential outcome ended
    exact ⟨middle, applied, chained_concat.mpr ⟨finish ▸ chained, rfl⟩⟩
  · intro u position opens
    have owns := (opened_of_openWrite locked drained isOpen opens).2
    exact absurd (locked.guards_exclude u owns) (List.ne_nil_of_mem live)

/-- Something is recorded of a section that no running call has open. -/
theorem Recorded.of_record (recorded : Recorded first s) {id : Nat}
    {change : Section methods → Section methods}
    (keeps : ∀ e, (change e).id = e.id ∧ (change e).op = e.op ∧ (change e).start = e.start ∧
      (change e).finish = e.finish)
    (sequential : ∀ e ∈ s.history, e.id = id → (change e).Sequential)
    (constant : ∀ e ∈ s.history, e.id = id → e.Constant → (change e).Constant)
    (apart : ∀ u position, (s.sync.pc u).opened = some position → position ≠ id) :
    Recorded first (s.record id change) := by
  have order : (s.record id change).order = s.order := order_record fun e => (keeps e).1
  have kept (e : Section methods) :
      (if e.id = id then change e else e).id = e.id ∧
        (if e.id = id then change e else e).op = e.op ∧
        (if e.id = id then change e else e).start = e.start := by
    split
    · exact ⟨(keeps e).1, (keeps e).2.1, (keeps e).2.2.1⟩
    · exact ⟨rfl, rfl, rfl⟩
  constructor
  · rw [span_record fun e _ _ => ?_]
    · exact recorded.chained
    · rw [Section.span, Section.span, (keeps e).2.2.1, (keeps e).2.2.2]
  · rw [order]
    exact recorded.nodup
  · intro e member
    obtain ⟨old, listed, rfl⟩ := mem_record.mp member
    rw [(kept old).1]
    exact recorded.id_lt old listed
  · intro e member
    obtain ⟨old, listed, rfl⟩ := mem_record.mp member
    split
    case isTrue mine => exact sequential old listed mine
    case isFalse => exact recorded.sequential old listed
  · intro e member op read
    obtain ⟨old, listed, rfl⟩ := mem_record.mp member
    have before := recorded.constant old listed op ((kept old).2.1.symm.trans read)
    split
    case isTrue mine => exact constant old listed mine before
    case isFalse => exact before
  · exact recorded.running
  · intro u position called closed
    rw [order]
    exact recorded.unopened u position called closed
  · intro u position opens call found e member same
    obtain ⟨old, listed, rfl⟩ := mem_record.mp member
    have other : old.id ≠ id := (kept old).1.symm.trans same ▸ apart u position opens
    rw [if_neg other] at same ⊢
    exact recorded.opened u position opens call found old listed same
  · intro position isOpen
    obtain ⟨e, member, mine, start, read⟩ := recorded.openRead position isOpen
    obtain ⟨id_same, op_same, start_same⟩ := kept e
    exact ⟨_, mem_record.mpr ⟨e, member, rfl⟩, id_same.trans mine, start_same.trans start,
      op_same ▸ read⟩
  · intro position isOpen
    obtain ⟨before, e, last, mine, write⟩ := recorded.openWrite position isOpen
    obtain ⟨id_same, op_same, -⟩ := kept e
    have still : (s.record id change).history =
        (before.map fun e => if e.id = id then change e else e) ++
          [if e.id = id then change e else e] := by
      rw [record, last, List.map_append, List.map_singleton]
    exact ⟨_, _, still, id_same.trans mine, op_same ▸ write⟩

/-- An open section has left the content as it is now. -/
theorem Recorded.finish_of_open (recorded : Recorded first s) {id : Nat}
    (isOpen : s.sync.OpenRead id ∨ s.sync.OpenWrite id) {e : Section methods}
    (member : e ∈ s.history) (mine : e.id = id) : e.finish = s.content := by
  rcases isOpen with reads | writes
  · obtain ⟨e', member', mine', start, op, read⟩ := recorded.openRead id reads
    obtain rfl := recorded.eq_of_id member member' (mine.trans mine'.symm)
    exact (recorded.constant e member op read).1.trans start
  · obtain ⟨before, e', last, mine', -⟩ := recorded.openWrite id writes
    have member' : e' ∈ s.history := last ▸ List.mem_append_right _ (List.mem_singleton_self _)
    obtain rfl := recorded.eq_of_id member member' (mine.trans mine'.symm)
    have chained := recorded.chained
    rw [last, List.map_append, List.map_singleton, chained_concat] at chained
    exact chained.2

/-- The content is read through a read guard. -/
theorem Recorded.of_look (recorded : Recorded first s) (identified : s.sync.Identified)
    {guard : ReadGuard Thread} (live : guard ∈ s.sync.readGuards) :
    Recorded first (s.record guard.id fun e =>
      { e with uses := e.uses ++ [(s.content, s.content)] }) := by
  have isOpen : s.sync.OpenRead guard.id := .inr ⟨guard, live, rfl⟩
  refine recorded.of_record (fun e => ⟨rfl, rfl, rfl, rfl⟩) ?_ ?_ ?_
  · intro e member mine outcome ended
    obtain ⟨middle, applied, chained⟩ := recorded.sequential e member outcome ended
    have finish := recorded.finish_of_open (.inl isOpen) member mine
    exact ⟨middle, applied, chained_concat.mpr ⟨finish ▸ chained, finish.symm⟩⟩
  · intro e member mine constant
    have start := constant.1.symm.trans (recorded.finish_of_open (.inl isOpen) member mine)
    refine ⟨constant.1, fun access used => ?_⟩
    rcases List.mem_append.mp used with used | new
    · exact constant.2 access used
    · rw [List.mem_singleton.mp new, ← start]
  · rintro u position opens rfl
    exact identified.readGuard_ne u guard.id (Pc.call_of_opened opens) guard live rfl

@[simp] theorem opens_order (id : Nat) (op : methods.Op) :
    (s.opens id op).order = s.order ++ [id] := List.map_append

theorem mem_opens {id : Nat} {op : methods.Op} {e : Section methods} :
    e ∈ (s.opens id op).history ↔
      e ∈ s.history ∨ e = ⟨id, op, s.content, s.content, none, []⟩ := by
  simp [opens]

variable [DecidableEq Thread] {kind : Kind} {sync : State Thread w} {step : Action Thread}

/-- A step of the protocol that neither makes a call nor opens a section. -/
theorem Recorded.of_sync (recorded : Recorded first s)
    (move : State.Moves kind s.sync step sync)
    (old : ∀ u id, (sync.pc u).call = some id → (s.sync.pc u).call = some id)
    (still : ∀ u id, (sync.pc u).opened = some id → (s.sync.pc u).opened ≠ none) :
    Recorded first { s with sync := sync } :=
  { recorded with
    id_lt := fun e member => Nat.lt_of_lt_of_le (recorded.id_lt e member) move.nextCall_le
    running := fun u id call => by
      have before := old u id call
      obtain ⟨running, here, shape⟩ := recorded.running u id before
      exact ⟨running, here, (move.inRead_of_next before call).symm ▸ shape⟩
    unopened := fun u id call closed => by
      exact recorded.unopened u id (old u id call) (move.closed_of_next call closed)
    opened := fun u id opened => by
      rcases move.opened_of_next opened with same | ⟨-, closed, -⟩
      · exact recorded.opened u id (same ▸ opened)
      · exact absurd closed (still u id opened)
    openRead := fun id isOpen => by
      rcases move.openRead_of_next isOpen with before | ⟨u, -, opened, closed, -⟩
      · exact recorded.openRead id before
      · exact absurd closed (still u id opened)
    openWrite := fun id isOpen => by
      rcases move.openWrite_of_next isOpen with before | ⟨u, -, opened, closed, -⟩
      · exact recorded.openWrite id before
      · exact absurd closed (still u id opened) }

theorem calls_running_self (t : Thread) (op : methods.Op) :
    (s.calls t op sync).running t = some ⟨op, methods.body op⟩ := Function.update_self ..

theorem calls_running_of_ne {t u : Thread} (op : methods.Op) (actor : u ≠ t) :
    (s.calls t op sync).running u = s.running u := Function.update_of_ne actor ..

/-- A method is called. -/
theorem Recorded.of_calls (recorded : Recorded first s) {t : Thread} {op : methods.Op}
    (move : State.Moves kind s.sync step sync)
    (now : (sync.pc t).call = some s.sync.nextCall) (closed : (sync.pc t).opened = none)
    (others : ∀ u, u ≠ t → sync.pc u = s.sync.pc u)
    (shape : Running.Fits ⟨op, methods.body op⟩ (sync.pc t).inRead) :
    Recorded first (s.calls t op sync) :=
  { recorded with
    id_lt := fun e member => Nat.lt_of_lt_of_le (recorded.id_lt e member) move.nextCall_le
    running := fun u id call => by
      by_cases actor : u = t
      · subst actor
        exact ⟨_, calls_running_self u op, shape⟩
      · have same := others u actor
        obtain ⟨running, here, shape⟩ := recorded.running u id (same ▸ call)
        exact ⟨running, (calls_running_of_ne op actor).trans here, same.symm ▸ shape⟩
    unopened := fun u id call unopened => by
      by_cases actor : u = t
      · subst actor
        obtain rfl : s.sync.nextCall = id := Option.some.inj (now.symm.trans call)
        refine ⟨fun member => ?_, fun running here => ?_⟩
        · obtain ⟨e, member, same⟩ := List.mem_map.mp member
          exact Nat.ne_of_lt (recorded.id_lt e member) same
        · obtain rfl := Option.some.inj ((calls_running_self u op).symm.trans here)
          rfl
      · have same := others u actor
        obtain ⟨absent, body⟩ := recorded.unopened u id (same ▸ call) (same ▸ unopened)
        exact ⟨absent, fun running here =>
          body running ((calls_running_of_ne op actor).symm.trans here)⟩
    opened := fun u id opened running here => by
      have actor : u ≠ t := by
        rintro rfl
        cases closed.symm.trans opened
      exact recorded.opened u id (others u actor ▸ opened) running
        ((calls_running_of_ne op actor).symm.trans here)
    openRead := fun id isOpen => by
      rcases move.openRead_of_next isOpen with before | ⟨u, -, opened, unopened, -⟩
      · exact recorded.openRead id before
      · have actor : u ≠ t := by
          rintro rfl
          cases closed.symm.trans opened
        rw [others u actor, unopened] at opened
        cases opened
    openWrite := fun id isOpen => by
      rcases move.openWrite_of_next isOpen with before | ⟨u, -, opened, unopened, -⟩
      · exact recorded.openWrite id before
      · have actor : u ≠ t := by
          rintro rfl
          cases closed.symm.trans opened
        rw [others u actor, unopened] at opened
        cases opened }

/-- A section is opened. -/
theorem Recorded.of_opens (recorded : Recorded first s) (identified : s.sync.Identified)
    (locked : s.sync.Locked) {t : Thread} {id : Nat} {call : Running methods}
    (move : State.Moves kind s.sync (.step t) sync) (opened : (sync.pc t).opened = some id)
    (running : s.running t = some call) :
    Recorded first ({ s with sync := sync }.opens id call.op) := by
  have closed := move.closed_of_step
  have called : (s.sync.pc t).call = some id := move.call_of_step (Pc.call_of_opened opened)
  obtain ⟨fresh, body⟩ := recorded.unopened t id called closed
  obtain ⟨running', here, shape⟩ := recorded.running t id called
  obtain rfl := Option.some.inj (running.symm.trans here)
  have reads := move.inRead_of_next called (Pc.call_of_opened opened)
  have other {u : Thread} {position : Nat} (actor : u ≠ t)
      (call : (sync.pc u).call = some position) : position ≠ id := by
    rintro rfl
    exact actor (identified.call_injective u t position (move.call_of_step call) called)
  constructor
  · have spans : Chained first (s.history.map Section.span ++ [(s.content, s.content)]) s.content :=
      chained_concat.mpr ⟨recorded.chained, rfl⟩
    simpa [opens, Section.span] using spans
  · rw [opens_order]
    refine List.nodup_append.mpr ⟨recorded.nodup, List.nodup_singleton _, ?_⟩
    rintro old member new single rfl
    rw [List.mem_singleton] at single
    exact fresh (single ▸ member)
  · intro e member
    refine Nat.lt_of_lt_of_le ?_ move.nextCall_le
    rcases mem_opens.mp member with member | rfl
    · exact recorded.id_lt e member
    · exact identified.call_lt t id called
  · intro e member outcome ended
    rcases mem_opens.mp member with member | rfl
    · exact recorded.sequential e member outcome ended
    · cases ended
  · intro e member op read
    rcases mem_opens.mp member with member | rfl
    · exact recorded.constant e member op read
    · exact ⟨rfl, by simp⟩
  · intro u position call
    have before := move.call_of_step call
    obtain ⟨running, here, shape⟩ := recorded.running u position before
    exact ⟨running, here, (move.inRead_of_next before call).symm ▸ shape⟩
  · intro u position call unopened
    have actor : u ≠ t := by
      rintro rfl
      cases opened.symm.trans unopened
    obtain ⟨absent, body⟩ := recorded.unopened u position (move.call_of_step call)
      (move.closed_of_next call unopened)
    refine ⟨fun member => ?_, body⟩
    rw [opens_order] at member
    rcases List.mem_append.mp member with member | single
    · exact absent member
    · exact other actor call (List.mem_singleton.mp single)
  · intro u position opens again found e member same
    by_cases actor : u = t
    · subst actor
      obtain rfl : id = position := Option.some.inj (opened.symm.trans opens)
      obtain rfl : call = again := Option.some.inj (running.symm.trans found)
      rcases mem_opens.mp member with member | rfl
      · exact absurd (List.mem_map.mpr ⟨e, member, same⟩) fresh
      · refine ⟨rfl, rfl, rfl, ?_⟩
        rw [body call running]
        exact methods.run_body ..
    · rcases mem_opens.mp member with member | rfl
      · rcases move.opened_of_next opens with unmoved | ⟨acts, -⟩
        · exact recorded.opened u position (unmoved ▸ opens) again found e member same
        · cases acts
          exact absurd rfl actor
      · exact absurd same.symm (other actor (Pc.call_of_opened opens))
  · intro position isOpen
    rcases move.openRead_of_next isOpen with before | ⟨u, acts, opens, -, reading⟩
    · obtain ⟨e, member, facts⟩ := recorded.openRead position before
      exact ⟨e, mem_opens.mpr (.inl member), facts⟩
    · cases acts
      obtain rfl : id = position := Option.some.inj (opened.symm.trans opens)
      rw [← reads, reading] at shape
      exact ⟨_, mem_opens.mpr (.inr rfl), rfl, rfl, shape.1⟩
  · intro position isOpen
    rcases move.openWrite_of_next isOpen with before | ⟨u, acts, opens, -, writing⟩
    · exact absurd before (move.not_openWrite locked opened closed)
    · cases acts
      obtain rfl : id = position := Option.some.inj (opened.symm.trans opens)
      rw [← reads, writing] at shape
      exact ⟨s.history, _, rfl, rfl, shape⟩

/-- The rest of a running body is replaced, and the content stays as it is. -/
theorem Recorded.of_running (recorded : Recorded first s) {t : Thread} {id : Nat}
    {call : Running methods} {rest : Body C (Outcome methods.Result)}
    (here : (s.sync.pc t).opened = some id) (running : s.running t = some call)
    (fits : Running.Fits ⟨call.op, rest⟩ (s.sync.pc t).inRead)
    (same : rest.run s.content = call.rest.run s.content) :
    Recorded first { s with running := Function.update s.running t (some ⟨call.op, rest⟩) } :=
  { recorded with
    running := fun u position called => by
      by_cases actor : u = t
      · subst actor
        exact ⟨_, Function.update_self .., fits⟩
      · obtain ⟨other, found, shape⟩ := recorded.running u position called
        exact ⟨other, (Function.update_of_ne actor ..).trans found, shape⟩
    unopened := fun u position called closed => by
      have actor : u ≠ t := by
        rintro rfl
        cases here.symm.trans closed
      obtain ⟨absent, body⟩ := recorded.unopened u position called closed
      refine ⟨absent, fun other found => body other ?_⟩
      have found : Function.update s.running t (some ⟨call.op, rest⟩) u = some other := found
      rwa [Function.update_of_ne actor] at found
    opened := fun u position opened other found e member mine => by
      have found : Function.update s.running t (some ⟨call.op, rest⟩) u = some other := found
      by_cases actor : u = t
      · subst actor
        rw [Function.update_self] at found
        obtain rfl := Option.some.inj found
        obtain ⟨op, ended, uses, run⟩ :=
          recorded.opened u position opened call running e member mine
        exact ⟨op, ended, uses, same.trans run⟩
      · rw [Function.update_of_ne actor] at found
        exact recorded.opened u position opened other found e member mine }

/-- The body of a running method accesses the content. -/
theorem Recorded.of_access (recorded : Recorded first s) (locked : s.sync.Locked)
    (drained : s.sync.Drained) {t : Thread} {id : Nat} {call : Running methods} {after : C}
    {rest : Body C (Outcome methods.Result)} (here : (s.sync.pc t).opened = some id)
    (running : s.running t = some call) (accessed : call.rest.step s.content = some (after, rest)) :
    Recorded first
      ({ s with
        content := after
        running := Function.update s.running t (some ⟨call.op, rest⟩) }.record id
          fun e => { e with finish := after }) := by
  have same := Body.run_of_step accessed
  obtain ⟨running', found, fits⟩ := recorded.running t id (Pc.call_of_opened here)
  obtain rfl : call = running' := Option.some.inj (running.symm.trans found)
  rcases openRead_or_openWrite here with ⟨reads, isOpen⟩ | ⟨writes, isOpen⟩
  · -- A read leaves the content alone, so there is nothing to record.
    rw [reads] at fits
    obtain ⟨⟨op, read⟩, readOnly⟩ := fits
    obtain ⟨rfl, still⟩ := readOnly.step accessed
    have unchanged : ∀ e ∈ s.history, e.id = id → { e with finish := s.content } = e := by
      intro e member mine
      obtain ⟨e', member', mine', start, op', read'⟩ := recorded.openRead id isOpen
      obtain rfl := recorded.eq_of_id member member' (mine.trans mine'.symm)
      have finish := (recorded.constant e member op' read').1
      rw [start] at finish
      rw [← finish]
    rw [record_eq_self]
    · exact recorded.of_running here running (reads ▸ ⟨⟨op, read⟩, still⟩) same
    · exact unchanged
  · rw [writes] at fits
    refine recorded.of_write locked drained isOpen (fun e => ⟨rfl, rfl, rfl, rfl⟩) ?_ ?_ ?_ ?_
    · intro e member mine _ _ outcome ended
      have facts := recorded.opened t id here call running e member mine
      cases facts.2.1.symm.trans ended
    · intro u position called
      by_cases actor : u = t
      · subst actor
        exact ⟨_, Function.update_self .., writes ▸ fits⟩
      · obtain ⟨other, found, shape⟩ := recorded.running u position called
        exact ⟨other, (Function.update_of_ne actor ..).trans found, shape⟩
    · intro u closed
      refine Function.update_of_ne ?_ ..
      rintro rfl
      cases here.symm.trans closed
    · intro u position opens
      obtain ⟨equal, owns⟩ := opened_of_openWrite locked drained isOpen opens
      refine ⟨equal, fun other found e member mine => ?_⟩
      have actor : u = t := by
        refine locked.owner_unique (.inl owns) (.inl ?_)
        exact (opened_of_openWrite locked drained isOpen here).2
      subst actor
      rw [Function.update_self] at found
      obtain rfl := Option.some.inj found
      obtain ⟨op, ended, uses, run⟩ := recorded.opened u id here call running e member mine
      exact ⟨op, ended, uses, same.trans run⟩

/-- A running method has come to its end. -/
theorem Recorded.of_left (recorded : Recorded first s) {t : Thread}
    {events : List (Event methods)} (move : State.Moves kind s.sync step sync)
    (left : (sync.pc t).call = none) (others : ∀ u, u ≠ t → sync.pc u = s.sync.pc u) :
    Recorded first
      { s with
        sync := sync
        running := Function.update s.running t none
        events := events } := by
  have actor {u : Thread} {position : Nat} (call : (sync.pc u).call = some position) : u ≠ t := by
    rintro rfl
    cases left.symm.trans call
  have kept {u : Thread} (actor : u ≠ t) : Function.update s.running t none u = s.running u :=
    Function.update_of_ne actor ..
  have old {position : Nat} (u : Thread) (opens : (sync.pc u).opened = some position) :
      (s.sync.pc u).opened ≠ none := by
    rw [← others u (actor (Pc.call_of_opened opens)), opens]
    exact Option.some_ne_none _
  exact { recorded with
    id_lt := fun e member => Nat.lt_of_lt_of_le (recorded.id_lt e member) move.nextCall_le
    running := fun u position called => by
      have same := others u (actor called)
      obtain ⟨call, found, fits⟩ := recorded.running u position (same ▸ called)
      exact ⟨call, (kept (actor called)).trans found, same.symm ▸ fits⟩
    unopened := fun u position called closed => by
      have same := others u (actor called)
      obtain ⟨absent, body⟩ := recorded.unopened u position (same ▸ called) (same ▸ closed)
      exact ⟨absent, fun call found => body call ((kept (actor called)).symm.trans found)⟩
    opened := fun u position opens call found => by
      have moved := actor (Pc.call_of_opened opens)
      exact recorded.opened u position (others u moved ▸ opens) call ((kept moved).symm.trans found)
    openRead := fun position isOpen => by
      rcases move.openRead_of_next isOpen with before | ⟨u, -, opens, closed, -⟩
      · exact recorded.openRead position before
      · exact absurd closed (old u opens)
    openWrite := fun position isOpen => by
      rcases move.openWrite_of_next isOpen with before | ⟨u, -, opens, closed, -⟩
      · exact recorded.openWrite position before
      · exact absurd closed (old u opens) }

/-- The body of a method ends, and how it has ended is recorded. -/
theorem Recorded.of_ends (recorded : Recorded first s) (identified : s.sync.Identified)
    {t : Thread} {id : Nat} {op : methods.Op} {outcome : Outcome methods.Result}
    (here : (s.sync.pc t).opened = some id) (running : s.running t = some ⟨op, .done outcome⟩)
    (move : State.Moves kind s.sync step sync) (left : (sync.pc t).call = none)
    (others : ∀ u, u ≠ t → sync.pc u = s.sync.pc u) :
    Recorded first (s.ends t id outcome sync) := by
  have isOpen := (openRead_or_openWrite here).imp And.right And.right
  refine (recorded.of_left move left others).of_record (fun e => ⟨rfl, rfl, rfl, rfl⟩) ?_
    (fun e _ _ constant => constant) ?_
  · intro e member mine result ended
    obtain rfl := Option.some.inj ended
    obtain ⟨-, -, uses, run⟩ := recorded.opened t id here _ running e member mine
    have finish := recorded.finish_of_open isOpen member mine
    exact ⟨s.content, run.symm, by rw [uses]; exact finish.symm⟩
  · rintro u position opens rfl
    have moved : u ≠ t := by
      rintro rfl
      cases left.symm.trans (Pc.call_of_opened opens)
    have before : (s.sync.pc u).opened = some position := others u moved ▸ opens
    exact moved (identified.call_injective u t position (Pc.call_of_opened before)
      (Pc.call_of_opened here))

variable {next : Store methods Thread w} {action : StoreAction methods Thread}

/-- The protocol below goes on as it does by itself. -/
theorem Moves.sync_preserved (move : Moves kind s action next) (holds : State Thread w → Prop)
    (preserved : ∀ sync step next, holds sync → State.Moves kind sync step next → holds next)
    (start : holds s.sync) : holds next.sync := by
  cases move with
  | read move | write move | walk move | opens move | leaveRead _ _ _ move | leaveWrite _ _ _ move
  | dropRead move | dropWrite move | send move => exact preserved _ _ _ start move
  | access | look | use => exact start

/-- Every step records what it does. -/
theorem Recorded.preserved (recorded : Recorded first s) (sound : s.sync.Sound)
    (identified : s.sync.Identified) (move : Moves kind s action next) : Recorded first next := by
  have locked := sound.locked
  cases move with
  | @read t op sync move =>
      have reading : sync = { s.sync with nextCall := s.sync.nextCall + 1 }.goto t
          (.slot ⟨s.sync.nextCall, methods.readMethod op⟩) := by
        cases move
        rfl
      subst reading
      refine recorded.of_calls move (by rw [State.goto_pc_self]; rfl)
        (by rw [State.goto_pc_self]; rfl)
        (fun u actor => State.goto_pc_of_ne _ _ _ _ actor) ?_
      rw [State.goto_pc_self]
      exact ⟨⟨op, rfl⟩, methods.readOnly op⟩
  | @write t op sync move =>
      have writing : sync = { s.sync with nextCall := s.sync.nextCall + 1 }.goto t
          (.acquire ⟨s.sync.nextCall, methods.writeMethod op⟩) := by
        cases move
        rfl
      subst writing
      refine recorded.of_calls move (by rw [State.goto_pc_self]; rfl)
        (by rw [State.goto_pc_self]; rfl)
        (fun u actor => State.goto_pc_of_ne _ _ _ _ actor) ?_
      rw [State.goto_pc_self]
      exact ⟨op, rfl⟩
  | @walk t sync move still =>
      refine recorded.of_sync move (fun u id call => move.call_of_step call) fun u id opens => ?_
      rcases move.opened_of_next opens with same | ⟨acts, -, called, -⟩
      · rw [← same, opens]
        exact Option.some_ne_none _
      · cases acts
        obtain ⟨call, running, -⟩ := recorded.running t id called
        rcases still with closed | none
        · cases closed.symm.trans opens
        · cases none.symm.trans running
  | opens move opened running => exact recorded.of_opens identified locked move opened running
  | access here running accessed =>
      exact recorded.of_access locked sound.drained here running accessed
  | @leaveRead t op outcome call count returned sync here running hands move =>
      refine recorded.of_ends identified (by rw [here]; rfl) running move ?_ fun u actor => ?_
      · cases move <;> (rw [State.goto_pc_self]; rfl)
      · cases move <;> exact State.goto_pc_of_ne _ _ _ _ actor
  | @leaveWrite t op outcome call returned sync here running hands move =>
      refine recorded.of_ends identified (by rw [here]; rfl) running move ?_ fun u actor => ?_
      · cases move <;> (rw [State.goto_pc_self]; rfl)
      · cases move <;> exact State.goto_pc_of_ne _ _ _ _ actor
  | look live => exact recorded.of_look identified live
  | use live => exact recorded.of_use locked sound.drained live _
  | @dropRead t id sync move =>
      have pcs : sync.pc = s.sync.pc := by
        cases move
        rfl
      refine recorded.of_sync move (fun u id call => pcs ▸ call) fun u id opens => ?_
      rw [← pcs, opens]
      exact Option.some_ne_none _
  | @dropWrite t id sync move =>
      have pcs (u : Thread) : sync.pc u = s.sync.pc u ∨ (sync.pc u).call = none := by
        cases move
        by_cases actor : u = t
        · subst actor
          exact .inr (by rw [State.goto_pc_self]; rfl)
        · exact .inl (State.goto_pc_of_ne _ _ _ _ actor)
      refine recorded.of_sync move (fun u id call => ?_) fun u id opens => ?_
      · rcases pcs u with same | left
        · exact same ▸ call
        · cases left.symm.trans call
      · rcases pcs u with same | left
        · rw [← same, opens]
          exact Option.some_ne_none _
        · cases left.symm.trans (Pc.call_of_opened opens)
  | @send id receiver sync move =>
      have pcs : sync.pc = s.sync.pc := by
        cases move
        rfl
      refine recorded.of_sync move (fun u id call => pcs ▸ call) fun u id opens => ?_
      rw [← pcs, opens]
      exact Option.some_ne_none _

end Store

end DarkStd.Sync
