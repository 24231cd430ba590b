import DarkStd.Semantics.HappensBefore
import DarkStd.Sync.Comparisons

/-!
# Accesses to the content do not race

The content is plain memory behind an `UnsafeCell`. That readers and writers
exclude each other in time does not yet make their accesses safe: what the one
has done must happen before what the other one does, and that is up to the
orderings of the atomic operations in between. Here a container records what it
does to memory. A mutex acquires with its lock and releases with its unlock; an
iterator that is sent to another thread is released by its sender and acquired
by its receiver, whatever it is sent through.

A write reaches the next reader through `writing`, and a read the next writer
through the counter of its section. Between writers there is the mutex.
-/

namespace DarkStd.Sync

open DarkStd.Semantics

/-- What threads share: the fields of the container, its counters, and what
an iterator is sent through. -/
inductive Location where
  | dirty
  | write
  | writing
  | registry
  | counter (count : Nat)
  | channel (id : Nat)
deriving DecidableEq, Repr

/-- The orderings of the operations on the counters and on `writing`. -/
structure Orderings where
  /-- `count.fetch_add(1)` -/
  add : MemoryOrder
  /-- `self.writing.load()` in `begin_read` -/
  load : MemoryOrder
  /-- `count.fetch_sub(1)`, because a writer was seen -/
  backOff : MemoryOrder
  /-- `self.writing.store(true)` -/
  raise : MemoryOrder
  /-- `c.load()` in the scan -/
  scan : MemoryOrder
  /-- `self.writing.store(false)` -/
  lower : MemoryOrder
  /-- `count.fetch_sub(1)` at the end of a section -/
  release : MemoryOrder

/-- The orderings that the source has. -/
def Orderings.source : Orderings where
  add := .seqCst
  load := .seqCst
  backOff := .seqCst
  raise := .seqCst
  scan := .seqCst
  lower := .seqCst
  release := .release

/-- The orderings by which a write becomes known to the next reader, and a read to
the next writer. -/
structure Orderings.Suffice (orders : Orderings) : Prop where
  lower_releases : orders.lower.releases = true
  load_acquires : orders.load.acquires = true
  release_releases : orders.release.releases = true
  scan_acquires : orders.scan.acquires = true

theorem Orderings.Suffice.source : Orderings.source.Suffice :=
  ⟨rfl, rfl, rfl, rfl⟩

/-- A container with the iterators that are on their way to another thread and
the operations on memory so far. -/
structure Traced (Thread : Type) (w : Nat) where
  sync : State Thread w
  offered : List Nat
  events : List (MemoryEvent Thread Location)

/-- What may happen to a container and its content. -/
inductive TracedAction (Thread : Type) where
  | sync (action : Action Thread)
  /-- A body of a method, or a holder of a guard, reads or writes the content. -/
  | access (thread : Thread) (writes : Bool)
  /-- An iterator is given away; `send` is its arrival. -/
  | offer (thread : Thread) (id : Nat)

namespace State

variable {Thread : Type} [DecidableEq Thread] {w : Nat}

/-- The operation on memory in the next step of a running call. -/
def operation (orders : Orderings) (s : State Thread w) (t : Thread) :
    Option (Operation Location) :=
  match s.pc t with
  | .register _ | .scanLock _ => some (.update .registry .acquire)
  | .release _ _ | .scanned _ _ => some (.store .registry .release)
  | .add _ count => some (.update (.counter count) orders.add)
  | .load _ _ => some (.load .writing orders.load)
  | .backOff _ count => some (.update (.counter count) orders.backOff)
  | .acquire _ => some (.update .write .acquire)
  | .raise _ => some (.store .writing orders.raise)
  | .scan _ next =>
      if next < s.registry.length then some (.load (.counter next) orders.scan) else none
  | .lower _ => some (.store .writing orders.lower)
  | .unlock _ => some (.store .write .release)
  | .idle | .slot _ | .push _ | .reading _ _ | .writing _ => none

/-- What an action does to memory, if anything. -/
def event (orders : Orderings) (s : State Thread w) :
    Action Thread → Option (MemoryEvent Thread Location)
  | .step t => (s.operation orders t).map (⟨t, ·⟩)
  | .leaveRead t none =>
      match s.pc t with
      | .reading _ count => some ⟨t, .update (.counter count) orders.release⟩
      | _ => none
  | .dropRead t id =>
      (s.readGuards.find? fun guard => guard.id = id ∧ guard.holder = t).map fun guard =>
        ⟨t, .update (.counter guard.count) orders.release⟩
  | .send id receiver => some ⟨receiver, .load (.channel id) .acquire⟩
  | .read .. | .write .. | .leaveRead _ (some _) | .leaveWrite .. | .dropWrite .. => none

end State

namespace Traced

variable {Thread : Type} {w : Nat}

/-- A container just constructed. -/
def new (Thread : Type) (w : Nat) : Traced Thread w := ⟨.new Thread w, [], []⟩

/-- The thread may write the content: in the body of a write method, or through
a write guard. -/
def MayWrite (s : Traced Thread w) (t : Thread) : Prop :=
  (s.sync.pc t).isWriting = true ∨ ∃ guard ∈ s.sync.writeGuards, guard.holder = t

/-- The thread may read the content, also in the body of a read method or
through a guard that it has not given away. -/
def MayRead (s : Traced Thread w) (t : Thread) : Prop :=
  (s.sync.pc t).isReading = true ∨
    (∃ guard ∈ s.sync.readGuards, guard.holder = t ∧ guard.id ∉ s.offered) ∨ s.MayWrite t

/-- The iterator can be given away by the thread. -/
def MayOffer (s : Traced Thread w) (kind : Kind) (t : Thread) (id : Nat) : Prop :=
  kind.iterIsSend = true ∧ id ∉ s.offered ∧ s.sync.pc t = .idle ∧
    ∃ guard ∈ s.sync.readGuards, guard.id = id ∧ guard.holder = t ∧ guard.kind = .iter

/-- What is given away can only arrive. -/
def Allows (s : Traced Thread w) : Action Thread → Prop
  | .dropRead _ id => id ∉ s.offered
  | .send id _ => id ∈ s.offered
  | .read .. | .write .. | .step _ | .leaveRead .. | .leaveWrite .. | .dropWrite .. => True

/-- The iterators that are on their way after an action. -/
def onTheWay (s : Traced Thread w) : Action Thread → List Nat
  | .send id _ => s.offered.filter (· ≠ id)
  | .read .. | .write .. | .step _ | .leaveRead .. | .leaveWrite .. | .dropRead ..
  | .dropWrite .. => s.offered

/-- An operation on memory beside those in the code of the container. -/
def perform (s : Traced Thread w) (t : Thread) (operation : Operation Location) :
    Traced Thread w :=
  { s with events := s.events ++ [⟨t, operation⟩] }

/-- An iterator leaves the thread. -/
def giveAway (s : Traced Thread w) (t : Thread) (id : Nat) : Traced Thread w :=
  { s.perform t (.store (.channel id) .release) with offered := id :: s.offered }

variable [DecidableEq Thread]

/-- After an action of the container. -/
def follow (s : Traced Thread w) (orders : Orderings) (action : Action Thread)
    (next : State Thread w) : Traced Thread w :=
  ⟨next, s.onTheWay action, s.events ++ (s.sync.event orders action).toList⟩

instance (s : Traced Thread w) (t : Thread) : Decidable (s.MayWrite t) :=
  inferInstanceAs (Decidable (_ ∨ _))

instance (s : Traced Thread w) (t : Thread) : Decidable (s.MayRead t) :=
  inferInstanceAs (Decidable (_ ∨ _ ∨ _))

instance (s : Traced Thread w) (kind : Kind) (t : Thread) (id : Nat) :
    Decidable (s.MayOffer kind t id) :=
  inferInstanceAs (Decidable (_ ∧ _ ∧ _ ∧ _))

instance (s : Traced Thread w) (action : Action Thread) : Decidable (s.Allows action) :=
  match action with
  | .dropRead _ id => inferInstanceAs (Decidable (id ∉ s.offered))
  | .send id _ => inferInstanceAs (Decidable (id ∈ s.offered))
  | .read .. | .write .. | .step _ | .leaveRead .. | .leaveWrite .. | .dropWrite .. =>
      inferInstanceAs (Decidable True)

/-- One action. -/
def step (kind : Kind) (orders : Orderings) (s : Traced Thread w) :
    TracedAction Thread → Option (Traced Thread w)
  | .sync action =>
      if s.Allows action then
        (s.sync.step kind action).map (s.follow orders action)
      else none
  | .access t writes =>
      if writes then
        if s.MayWrite t then some (s.perform t (.write .dirty)) else none
      else
        if s.MayRead t then some (s.perform t (.read .dirty)) else none
  | .offer t id =>
      if s.MayOffer kind t id then some (s.giveAway t id) else none

end Traced

/-- One container of the given kind with the given orderings, and the operations
on memory that threads perform in it. A load sees the value stored last. For that
no update may be missed, which takes the `SeqCst` operations of the source; with
weaker ones these are some of the executions and not all. -/
def traced (kind : Kind) (orders : Orderings) (Thread : Type) [DecidableEq Thread] (w : Nat) :
    System (Traced Thread w) (TracedAction Thread) :=
  .ofFunction (.new Thread w) (Traced.step kind orders)

namespace Traced

variable {Thread : Type} {w : Nat}

/-- The operation has written the content. -/
def WroteAt (s : Traced Thread w) (i : Nat) : Prop :=
  ∃ t, s.events[i]? = some ⟨t, .write .dirty⟩

/-- The operation has read the content. -/
def ReadAt (s : Traced Thread w) (i : Nat) : Prop :=
  ∃ t, s.events[i]? = some ⟨t, .read .dirty⟩

/-- The owner of the mutex `write` knows of the operation, or the next one will. -/
def Guarded (s : Traced Thread w) (i : Nat) : Prop :=
  match s.sync.write with
  | some t => Knows s.events t i
  | none => Carries s.events .write i

/-- The holder of the guard knows of the operation, or the receiver will. -/
def Follows (s : Traced Thread w) (guard : ReadGuard Thread) (i : Nat) : Prop :=
  if guard.id ∈ s.offered then Carries s.events (.channel guard.id) i
  else Knows s.events guard.holder i

/-- Who finds the counter at zero knows of the operation: it is carried there,
or an open section will release it there. -/
def Kept (s : Traced Thread w) (count i : Nat) : Prop :=
  Carries s.events (.counter count) i ∨
    (∃ t call, s.sync.pc t = .reading call count ∧ Knows s.events t i) ∨
      ∃ guard ∈ s.sync.readGuards, guard.count = count ∧ s.Follows guard i

variable {s : Traced Thread w} {i : Nat}

/-- The owner of the mutex knows what is guarded. -/
theorem Guarded.knows {t : Thread} (guarded : s.Guarded i) (owner : s.sync.write = some t) :
    Knows s.events t i := by
  unfold Guarded at guarded
  rwa [owner] at guarded

theorem guarded_of_knows {t : Thread} (knows : Knows s.events t i)
    (owner : s.sync.write = some t) : s.Guarded i := by
  unfold Guarded
  rw [owner]
  exact knows

/-- A new guard follows what its call knows. -/
theorem follows_of_knows {guard : ReadGuard Thread} (knows : Knows s.events guard.holder i)
    (here : guard.id ∉ s.offered) : s.Follows guard i := by
  unfold Follows
  rwa [if_neg here]

theorem Follows.knows {guard : ReadGuard Thread} (follows : s.Follows guard i)
    (here : guard.id ∉ s.offered) : Knows s.events guard.holder i := by
  unfold Follows at follows
  rwa [if_neg here] at follows

theorem Follows.carries {guard : ReadGuard Thread} (follows : s.Follows guard i)
    (away : guard.id ∈ s.offered) : Carries s.events (.channel guard.id) i := by
  unfold Follows at follows
  rwa [if_pos away] at follows

theorem follows_of_carries {guard : ReadGuard Thread}
    (carries : Carries s.events (.channel guard.id) i) (away : guard.id ∈ s.offered) :
    s.Follows guard i := by
  unfold Follows
  rwa [if_pos away]

/-- Another operation leaves alone what a location carries. -/
theorem carries_perform {location : Location} {t : Thread} {operation : Operation Location}
    (carries : Carries s.events location i) (elsewhere : operation.location ≠ location) :
    Carries (s.perform t operation).events location i := by
  refine carries.append fun event new place => ?_
  obtain rfl := List.mem_singleton.mp new
  exact absurd place elsewhere

theorem Guarded.perform {t : Thread} {operation : Operation Location} (guarded : s.Guarded i)
    (elsewhere : operation.location ≠ .write) : (s.perform t operation).Guarded i := by
  unfold Guarded at guarded ⊢
  change match s.sync.write with
    | some u => Knows (s.perform t operation).events u i
    | none => Carries (s.perform t operation).events .write i
  split at guarded
  · exact guarded.append
  · exact carries_perform guarded elsewhere

theorem Follows.perform {guard : ReadGuard Thread} {t : Thread} {operation : Operation Location}
    (follows : s.Follows guard i) (elsewhere : operation.location ≠ .channel guard.id) :
    (s.perform t operation).Follows guard i := by
  by_cases away : guard.id ∈ s.offered
  · exact follows_of_carries (carries_perform (follows.carries away) elsewhere) away
  · exact follows_of_knows (follows.knows away).append away

/-- An access to the content leaves alone where the others are kept. -/
theorem Kept.perform {count : Nat} {t : Thread} {operation : Operation Location}
    (kept : s.Kept count i) (access : operation.location = .dirty) :
    (s.perform t operation).Kept count i := by
  rcases kept with carries | ⟨u, call, here, knows⟩ | ⟨guard, live, same, follows⟩
  · exact .inl (carries_perform carries (by rw [access]; nofun))
  · exact .inr (.inl ⟨u, call, here, knows.append⟩)
  · exact .inr (.inr ⟨guard, live, same, follows.perform (by rw [access]; nofun)⟩)

/-- What is known of the container itself. -/
structure Protected (s : State Thread w) : Prop where
  sound : s.Sound
  identified : s.Identified
  nodup : (s.readGuards.map (·.id)).Nodup

/-- Where the accesses so far are known. -/
structure Ordered (s : Traced Thread w) : Prop where
  raceFree : RaceFree s.events
  plain_iff : ∀ (i : Nat) (event : MemoryEvent Thread Location), s.events[i]? = some event →
    (event.operation.plain = true ↔ event.operation.location = .dirty)
  offered_live : ∀ id ∈ s.offered, ∃ guard ∈ s.sync.readGuards, guard.id = id
  write_guarded : ∀ i, s.WroteAt i → s.Guarded i
  write_announced : s.sync.writing = false → ∀ i, s.WroteAt i → Carries s.events .writing i
  write_read : ∀ t call count, s.sync.pc t = .reading call count → ∀ i, s.WroteAt i →
    Knows s.events t i
  write_followed : ∀ guard ∈ s.sync.readGuards, ∀ i, s.WroteAt i → s.Follows guard i
  read_kept : ∀ i, s.ReadAt i → s.Guarded i ∨ ∃ count < s.sync.registry.length, s.Kept count i
  read_scanned : ∀ t call next, s.sync.pc t = .scan call next → ∀ i, s.ReadAt i →
    s.Guarded i ∨ ∃ count < s.sync.registry.length, next ≤ count ∧ s.Kept count i
  read_drained : (∃ t, (s.sync.pc t).drained = true) ∨ s.sync.writeGuards ≠ [] →
    ∀ i, s.ReadAt i → s.Guarded i

theorem Ordered.new : (Traced.new Thread w).Ordered where
  raceFree := by simp [Traced.new, RaceFree]
  plain_iff := by simp [Traced.new]
  offered_live := by simp [Traced.new]
  write_guarded := by simp [Traced.new, WroteAt]
  write_announced := by simp [Traced.new, WroteAt]
  write_read := by simp [Traced.new, WroteAt]
  write_followed := by simp [Traced.new, WroteAt]
  read_kept := by simp [Traced.new, ReadAt]
  read_scanned := by simp [Traced.new, ReadAt]
  read_drained := by simp [Traced.new, ReadAt]

section Accesses

variable {t : Thread}

/-- Who may write owns the mutex, with the flag up. -/
theorem MayWrite.owner (may : s.MayWrite t) (locked : s.sync.Locked) :
    s.sync.write = some t ∧ s.sync.writing = true := by
  rcases may with body | held
  · have owns : (s.sync.pc t).ownsWrite = true := by
      cases here : s.sync.pc t <;> simp_all [Pc.isWriting, Pc.ownsWrite]
    refine ⟨(locked.owner_iff t).mpr (.inl owns), ?_⟩
    rw [locked.flag_call t owns]
    cases here : s.sync.pc t <;> simp_all [Pc.isWriting, Pc.raised]
  · have ⟨guard, live, _⟩ := held
    exact ⟨(locked.owner_iff t).mpr (.inr held), locked.flag_guard (List.ne_nil_of_mem live)⟩

/-- Who may write is in a section of a writer that has finished its scan. -/
theorem MayWrite.drained (may : s.MayWrite t) :
    (∃ u, (s.sync.pc u).drained = true) ∨ s.sync.writeGuards ≠ [] := by
  rcases may with body | ⟨guard, live, -⟩
  · refine .inl ⟨t, ?_⟩
    cases here : s.sync.pc t <;> simp_all [Pc.isWriting, Pc.drained]
  · exact .inr (List.ne_nil_of_mem live)

/-- A writer that has finished its scan is alone. -/
theorem quiet_of_drained (drained : (∃ u, (s.sync.pc u).drained = true) ∨ s.sync.writeGuards ≠ [])
    (safe : s.sync.Drained) (count : Nat) : s.sync.Quiet count := by
  refine State.not_readSectionOpen_iff.mp ?_ count
  rcases drained with ⟨u, here⟩ | guarded
  · exact safe.drained_closed u here
  · exact safe.guarded_closed guarded

/-- An access to the content that has been made is a write or a read. -/
theorem Ordered.accessed (ordered : s.Ordered) {old : MemoryEvent Thread Location}
    (here : s.events[i]? = some old) (place : old.operation.location = .dirty) :
    s.WroteAt i ∨ s.ReadAt i ∧ old.operation.writes = false := by
  have plain := (ordered.plain_iff i old here).mpr place
  obtain ⟨u, operation⟩ := old
  cases operation with
  | read location =>
      obtain rfl : location = .dirty := place
      exact .inr ⟨⟨u, here⟩, rfl⟩
  | write location =>
      obtain rfl : location = .dirty := place
      exact .inl ⟨u, here⟩
  | _ => cases plain

/-- Who may read the content knows what has been written to it. -/
theorem Ordered.knows_of_mayRead (ordered : s.Ordered) (locked : s.sync.Locked)
    (may : s.MayRead t) (wrote : s.WroteAt i) : Knows s.events t i := by
  rcases may with body | ⟨guard, live, rfl, here⟩ | may
  · cases here : s.sync.pc t with
    | reading call count => exact ordered.write_read t call count here i wrote
    | _ => simp [here, Pc.isReading] at body
  · exact (ordered.write_followed guard live i wrote).knows here
  · exact (ordered.write_guarded i wrote).knows (may.owner locked).1

/-- A new read is known to the writer, or kept by a counter that is in use. -/
theorem kept_of_mayRead (safe : Protected s.sync) (may : s.MayRead t) :
    (s.perform t (.read .dirty)).Guarded s.events.length ∨
      ∃ count < s.sync.registry.length, ¬ s.sync.Quiet count ∧
        (s.perform t (.read .dirty)).Kept count s.events.length := by
  have knows : Knows (s.perform t (.read .dirty)).events t s.events.length := knows_last
  rcases may with body | ⟨guard, live, rfl, here⟩ | may
  · cases here : s.sync.pc t with
    | reading call count =>
        have slot := safe.sound.registered.pointer_slot t count (by rw [here]; rfl)
        exact .inr ⟨count, safe.sound.registered.slot_lt t count slot,
          fun quiet => quiet.2 t call here, .inr (.inl ⟨t, call, here, knows⟩)⟩
    | _ => simp [here, Pc.isReading] at body
  · refine .inr ⟨guard.count, safe.sound.accounted.guard_lt guard live, fun quiet => ?_,
      .inr (.inr ⟨guard, live, rfl, follows_of_knows knows here⟩)⟩
    exact guardsOn_eq_zero.mp quiet.1 guard live rfl
  · exact .inl (guarded_of_knows knows (may.owner safe.sound.locked).1)

/-- A writer writes the content. -/
theorem Ordered.write (ordered : s.Ordered) (safe : Protected s.sync) (may : s.MayWrite t) :
    (s.perform t (.write .dirty)).Ordered := by
  obtain ⟨owner, up⟩ := may.owner safe.sound.locked
  have quiet := quiet_of_drained may.drained safe.sound.drained
  have wrote {i : Nat} (at_i : (s.perform t (.write .dirty)).WroteAt i) :
      s.WroteAt i ∨ i = s.events.length := by
    obtain ⟨u, here⟩ := at_i
    exact (getElem?_append_singleton here).imp (⟨u, ·⟩) (·.1)
  have read {i : Nat} (at_i : (s.perform t (.write .dirty)).ReadAt i) : s.ReadAt i := by
    obtain ⟨u, here⟩ := at_i
    rcases getElem?_append_singleton here with old | ⟨-, new⟩
    · exact ⟨u, old⟩
    · simp at new
  have guarded {i : Nat} (at_i : s.ReadAt i) : (s.perform t (.write .dirty)).Guarded i :=
    (ordered.read_drained may.drained i at_i).perform nofun
  refine ⟨?_, ?_, ordered.offered_live, ?_, ?_, ?_, ?_, ?_, ?_, ?_⟩
  · refine ordered.raceFree.append fun i old here conflicts => ?_
    rcases ordered.accessed here conflicts.1 with wrote | ⟨read, -⟩
    · exact (ordered.write_guarded i wrote).knows owner
    · exact (ordered.read_drained may.drained i read).knows owner
  · intro i event here
    rcases getElem?_append_singleton here with old | ⟨-, rfl⟩
    · exact ordered.plain_iff i event old
    · simp [Operation.plain, Operation.location]
  · intro i at_i
    rcases wrote at_i with old | rfl
    · exact (ordered.write_guarded i old).perform nofun
    · exact guarded_of_knows knows_last owner
  · exact fun down => absurd (up.symm.trans down) nofun
  · exact fun u call count here => absurd here ((quiet count).2 u call)
  · exact fun guard live => absurd rfl (guardsOn_eq_zero.mp (quiet guard.count).1 guard live)
  · exact fun i at_i => .inl (guarded (read at_i))
  · exact fun u call next here i at_i => .inl (guarded (read at_i))
  · exact fun drained i at_i => guarded (read at_i)

/-- A reader reads the content. -/
theorem Ordered.read (ordered : s.Ordered) (safe : Protected s.sync) (may : s.MayRead t) :
    (s.perform t (.read .dirty)).Ordered := by
  have wrote {i : Nat} (at_i : (s.perform t (.read .dirty)).WroteAt i) : s.WroteAt i := by
    obtain ⟨u, here⟩ := at_i
    rcases getElem?_append_singleton here with old | ⟨-, new⟩
    · exact ⟨u, old⟩
    · simp at new
  have read {i : Nat} (at_i : (s.perform t (.read .dirty)).ReadAt i) :
      s.ReadAt i ∨ i = s.events.length := by
    obtain ⟨u, here⟩ := at_i
    exact (getElem?_append_singleton here).imp (⟨u, ·⟩) (·.1)
  have new := kept_of_mayRead safe may
  refine ⟨?_, ?_, ordered.offered_live, ?_, ?_, ?_, ?_, ?_, ?_, ?_⟩
  · refine ordered.raceFree.append fun i old here conflicts => ?_
    rcases ordered.accessed here conflicts.1 with wrote | ⟨-, unwritten⟩
    · exact ordered.knows_of_mayRead safe.sound.locked may wrote
    · rcases conflicts.2.1 with writes | writes
      · exact absurd (unwritten.symm.trans writes) nofun
      · cases writes
  · intro i event here
    rcases getElem?_append_singleton here with old | ⟨-, rfl⟩
    · exact ordered.plain_iff i event old
    · simp [Operation.plain, Operation.location]
  · exact fun i at_i => (ordered.write_guarded i (wrote at_i)).perform nofun
  · exact fun down i at_i => carries_perform (ordered.write_announced down i (wrote at_i)) nofun
  · exact fun u call count here i at_i =>
      (ordered.write_read u call count here i (wrote at_i)).append
  · exact fun guard live i at_i => (ordered.write_followed guard live i (wrote at_i)).perform nofun
  · intro i at_i
    rcases read at_i with old | rfl
    · rcases ordered.read_kept i old with guarded | ⟨count, below, kept⟩
      · exact .inl (guarded.perform nofun)
      · exact .inr ⟨count, below, kept.perform rfl⟩
    · exact new.imp_right fun ⟨count, below, _, kept⟩ => ⟨count, below, kept⟩
  · intro u call next here i at_i
    rcases read at_i with old | rfl
    · rcases ordered.read_scanned u call next here i old with
        guarded | ⟨count, below, above, kept⟩
      · exact .inl (guarded.perform nofun)
      · exact .inr ⟨count, below, above, kept.perform rfl⟩
    · -- What the scan has passed is quiet, so the counter in use is still to come.
      refine new.imp_right fun ⟨count, below, busy, kept⟩ => ⟨count, below, ?_, kept⟩
      exact Nat.le_of_not_lt fun passed =>
        busy (safe.sound.drained.scanned_quiet u call next here count passed)
  · intro drained i at_i
    rcases read at_i with old | rfl
    · exact (ordered.read_drained drained i old).perform nofun
    · exact new.resolve_right fun ⟨count, _, busy, _⟩ =>
        busy (quiet_of_drained drained safe.sound.drained count)

/-- An iterator that is given away takes along what its holder knows. -/
theorem Follows.offer {guard offered : ReadGuard Thread} (follows : s.Follows guard i)
    (nodup : (s.sync.readGuards.map (·.id)).Nodup) (live : guard ∈ s.sync.readGuards)
    (live' : offered ∈ s.sync.readGuards) (here : offered.id ∉ s.offered) :
    (s.giveAway offered.holder offered.id).Follows guard i := by
  by_cases same : guard.id = offered.id
  · obtain rfl := List.inj_on_of_nodup_map nodup live live' same
    have knows : Knows s.events guard.holder i := follows.knows here
    refine follows_of_carries ?_ List.mem_cons_self
    exact knows.carries rfl
  · by_cases away : guard.id ∈ s.offered
    · refine follows_of_carries ?_ (List.mem_cons_of_mem _ away)
      exact carries_perform (follows.carries away)
        (by simpa [Operation.location] using Ne.symm same)
    · refine follows_of_knows (follows.knows away).append ?_
      exact fun member => (List.mem_cons.mp member).elim same away

/-- An iterator is given away. -/
theorem Ordered.offer (ordered : s.Ordered) (safe : Protected s.sync) {guard : ReadGuard Thread}
    (live : guard ∈ s.sync.readGuards) (here : guard.id ∉ s.offered) :
    (s.giveAway guard.holder guard.id).Ordered := by
  have wrote {i : Nat} (at_i : (s.giveAway guard.holder guard.id).WroteAt i) : s.WroteAt i := by
    obtain ⟨u, here⟩ := at_i
    rcases getElem?_append_singleton here with old | ⟨-, new⟩
    · exact ⟨u, old⟩
    · simp at new
  have read {i : Nat} (at_i : (s.giveAway guard.holder guard.id).ReadAt i) : s.ReadAt i := by
    obtain ⟨u, here⟩ := at_i
    rcases getElem?_append_singleton here with old | ⟨-, new⟩
    · exact ⟨u, old⟩
    · simp at new
  have guards {i : Nat} (guarded : s.Guarded i) :
      (s.giveAway guard.holder guard.id).Guarded i := guarded.perform nofun
  have keeps {count i : Nat} (kept : s.Kept count i) :
      (s.giveAway guard.holder guard.id).Kept count i := by
    rcases kept with carries | ⟨u, call, there, knows⟩ | ⟨other, live', same, follows⟩
    · exact .inl (carries_perform carries nofun)
    · exact .inr (.inl ⟨u, call, there, knows.append⟩)
    · exact .inr (.inr ⟨other, live', same, follows.offer safe.nodup live' live here⟩)
  refine ⟨?_, ?_, ?_, ?_, ?_, ?_, ?_, ?_, ?_, ?_⟩
  · refine ordered.raceFree.append fun i old there conflicts => ?_
    obtain ⟨same, -, plain | plain⟩ := conflicts
    · have place := (ordered.plain_iff i old there).mp plain
      cases same.symm.trans place
    · cases plain
  · intro i event there
    rcases getElem?_append_singleton there with old | ⟨-, rfl⟩
    · exact ordered.plain_iff i event old
    · simp [Operation.plain, Operation.location]
  · intro id away
    rcases List.mem_cons.mp away with rfl | away
    · exact ⟨guard, live, rfl⟩
    · exact ordered.offered_live id away
  · exact fun i at_i => guards (ordered.write_guarded i (wrote at_i))
  · exact fun down i at_i => carries_perform (ordered.write_announced down i (wrote at_i)) nofun
  · exact fun u call count there i at_i =>
      (ordered.write_read u call count there i (wrote at_i)).append
  · exact fun other live' i at_i =>
      (ordered.write_followed other live' i (wrote at_i)).offer safe.nodup live' live here
  · intro i at_i
    exact (ordered.read_kept i (read at_i)).imp guards
      fun ⟨count, below, kept⟩ => ⟨count, below, keeps kept⟩
  · intro u call next there i at_i
    exact (ordered.read_scanned u call next there i (read at_i)).imp guards
      fun ⟨count, below, above, kept⟩ => ⟨count, below, above, keeps kept⟩
  · exact fun drained i at_i => guards (ordered.read_drained drained i (read at_i))

end Accesses

end Traced

namespace State

variable {Thread : Type} [DecidableEq Thread] {w : Nat}
variable {orders : Orderings} {s : State Thread w} {action : Action Thread}
variable {event : MemoryEvent Thread Location}

/-- The registry only grows. -/
theorem Moves.registry_le {kind : Kind} {next : State Thread w}
    (move : Moves kind s action next) : s.registry.length ≤ next.registry.length := by
  rcases move.slots_eq with ⟨-, same⟩ | ⟨-, -, -, -, -, longer⟩ <;> omega

/-- The drop of a guard gives back the slot that it holds. -/
theorem event_dropRead (nodup : (s.readGuards.map (·.id)).Nodup) {guard : ReadGuard Thread}
    (live : guard ∈ s.readGuards) : s.event orders (.dropRead guard.holder guard.id) =
      some ⟨guard.holder, .update (.counter guard.count) orders.release⟩ := by
  have found : (s.readGuards.find?
      fun other => other.id = guard.id ∧ other.holder = guard.holder).isSome := by
    rw [List.find?_isSome]
    exact ⟨guard, live, by simp⟩
  obtain ⟨other, found⟩ := Option.isSome_iff_exists.mp found
  have matched := List.find?_some found
  obtain ⟨same, -⟩ := of_decide_eq_true matched
  obtain rfl := List.inj_on_of_nodup_map nodup (List.mem_of_find?_eq_some found) live same
  rw [event, found]
  rfl

/-- What an action may do to memory. -/
theorem event_cases (performed : s.event orders action = some event) :
    (∃ t op, action = .step t ∧ s.operation orders t = some op ∧ event = ⟨t, op⟩) ∨
      (∃ t count, event = ⟨t, .update (.counter count) orders.release⟩) ∨
        ∃ id receiver, event = ⟨receiver, .load (.channel id) .acquire⟩ := by
  cases action with
  | step t =>
      obtain ⟨op, here, rfl⟩ := Option.map_eq_some_iff.mp performed
      exact .inl ⟨t, op, rfl, here, rfl⟩
  | leaveRead t returned =>
      cases returned with
      | some guard => cases performed
      | none =>
          simp only [State.event] at performed
          split at performed
          case h_1 count here => exact .inr (.inl ⟨t, count, (Option.some.inj performed).symm⟩)
          case h_2 => cases performed
  | dropRead t id =>
      obtain ⟨guard, -, rfl⟩ := Option.map_eq_some_iff.mp performed
      exact .inr (.inl ⟨t, guard.count, rfl⟩)
  | send id receiver => exact .inr (.inr ⟨id, receiver, (Option.some.inj performed).symm⟩)
  | _ => cases performed

/-- The code of the container leaves the content alone, but for its bodies. -/
theorem event_atomic (performed : s.event orders action = some event) :
    event.operation.plain = false ∧ event.operation.location ≠ .dirty := by
  rcases event_cases performed with ⟨t, op, -, here, rfl⟩ | ⟨t, count, rfl⟩ | ⟨id, receiver, rfl⟩
  · unfold operation at here
    split at here <;> grind [Operation.plain, Operation.location]
  · exact ⟨rfl, nofun⟩
  · exact ⟨rfl, nofun⟩

/-- Only the two mutexes and `writing` are ever stored to. -/
theorem event_overwrites (performed : s.event orders action = some event)
    (overwrites : event.operation.overwrites = true) :
    event.operation.location = .registry ∨ ∃ t, action = .step t ∧
      ((event.operation.location = .write ∧ ∃ id, s.pc t = .unlock id) ∨
        event.operation.location = .writing ∧
          ((∃ call, s.pc t = .raise call) ∨ ∃ id, s.pc t = .lower id)) := by
  rcases event_cases performed with ⟨t, op, rfl, here, rfl⟩ | ⟨t, count, rfl⟩ | ⟨id, receiver, rfl⟩
  · unfold operation at here
    split at here <;> grind [Operation.overwrites, Operation.location]
  · cases overwrites
  · cases overwrites

end State

namespace Traced

variable {Thread : Type} [DecidableEq Thread] {w : Nat} {kind : Kind} {orders : Orderings}
variable {s : Traced Thread w} {action : Action Thread} {next : State Thread w} {i : Nat}

theorem wroteAt_follow : (s.follow orders action next).WroteAt i ↔ s.WroteAt i := by
  constructor
  · rintro ⟨t, here⟩
    rcases getElem?_append_cases here with old | ⟨-, new⟩
    · exact ⟨t, old⟩
    · exact absurd (State.event_atomic (Option.mem_toList.mp new)).1 (by simp [Operation.plain])
  · rintro ⟨t, here⟩
    exact ⟨t, getElem?_of_append here⟩

theorem readAt_follow : (s.follow orders action next).ReadAt i ↔ s.ReadAt i := by
  constructor
  · rintro ⟨t, here⟩
    rcases getElem?_append_cases here with old | ⟨-, new⟩
    · exact ⟨t, old⟩
    · exact absurd (State.event_atomic (Option.mem_toList.mp new)).1 (by simp [Operation.plain])
  · rintro ⟨t, here⟩
    exact ⟨t, getElem?_of_append here⟩

/-- A thread forgets nothing. -/
theorem knows_follow {t : Thread} (knows : Knows s.events t i) :
    Knows (s.follow orders action next).events t i := knows.append

/-- The event of an action is the last. -/
theorem follow_events {event : MemoryEvent Thread Location}
    (performed : s.sync.event orders action = some event) :
    (s.follow orders action next).events = s.events ++ [event] := by
  rw [follow, performed]
  rfl

/-- A thread learns what is carried where it acquires. -/
theorem knows_of_acquire {t : Thread} (operation : Operation Location)
    (carries : Carries s.events operation.location i)
    (performed : s.sync.event orders action = some ⟨t, operation⟩)
    (acquires : operation.acquires = true) : Knows (s.follow orders action next).events t i := by
  rw [follow_events performed]
  exact carries.knows acquires

/-- A thread passes on what it knows where it releases. -/
theorem carries_of_release {t : Thread} (operation : Operation Location)
    (knows : Knows s.events t i) (performed : s.sync.event orders action = some ⟨t, operation⟩)
    (releases : operation.releases = true) :
    Carries (s.follow orders action next).events operation.location i := by
  rw [follow_events performed]
  exact knows.carries releases

/-- A counter carries what it has carried before. -/
theorem counter_follow {count : Nat} (carries : Carries s.events (.counter count) i) :
    Carries (s.follow orders action next).events (.counter count) i := by
  refine carries.append fun event new place => ?_
  refine Bool.eq_false_iff.mpr fun overwrites => ?_
  grind [State.event_overwrites (Option.mem_toList.mp new) overwrites]

theorem channel_follow {id : Nat} (carries : Carries s.events (.channel id) i) :
    Carries (s.follow orders action next).events (.channel id) i := by
  refine carries.append fun event new place => ?_
  refine Bool.eq_false_iff.mpr fun overwrites => ?_
  grind [State.event_overwrites (Option.mem_toList.mp new) overwrites]

theorem write_follow (carries : Carries s.events .write i)
    (kept : ∀ t id, action = .step t → s.sync.pc t ≠ .unlock id) :
    Carries (s.follow orders action next).events .write i := by
  refine carries.append fun event new place => ?_
  refine Bool.eq_false_iff.mpr fun overwrites => ?_
  grind [State.event_overwrites (Option.mem_toList.mp new) overwrites]

theorem writing_follow (carries : Carries s.events .writing i)
    (kept : ∀ t, action = .step t →
      (∀ call, s.sync.pc t ≠ .raise call) ∧ ∀ id, s.sync.pc t ≠ .lower id) :
    Carries (s.follow orders action next).events .writing i := by
  refine carries.append fun event new place => ?_
  refine Bool.eq_false_iff.mpr fun overwrites => ?_
  grind [State.event_overwrites (Option.mem_toList.mp new) overwrites]

theorem Guarded.of_eq (guarded : s.Guarded i) (same : next.write = s.sync.write)
    (kept : ∀ t id, action = .step t → s.sync.pc t ≠ .unlock id) :
    (s.follow orders action next).Guarded i := by
  unfold Guarded at guarded ⊢
  change match next.write with
    | some t => Knows (s.follow orders action next).events t i
    | none => Carries (s.follow orders action next).events .write i
  rw [same]
  split at guarded
  · exact knows_follow guarded
  · exact write_follow guarded kept

/-- The mutex `write` hands on what its owners know. -/
theorem Guarded.follow (guarded : s.Guarded i) (locked : s.sync.Locked)
    (move : State.Moves kind s.sync action next) : (s.follow orders action next).Guarded i := by
  cases move with
  | @acquire t call here free =>
      have carried : Carries s.events .write i := by
        unfold Guarded at guarded
        rwa [free] at guarded
      exact knows_of_acquire (.update .write .acquire) carried
        (by simp [State.event, State.operation, here]) rfl
  | @unlock t id here =>
      have owner := (locked.owner_iff t).mpr (.inl (by rw [here]; rfl))
      have known : Knows s.events t i := by
        unfold Guarded at guarded
        rwa [owner] at guarded
      exact carries_of_release (.store .write .release) known
        (by simp [State.event, State.operation, here]) rfl
  | _ => exact guarded.of_eq rfl fun t id acts here' => by simp_all

/-- While the flag is down it passes on what was known when it was lowered. -/
theorem announced_follow (announced : s.sync.writing = false → Carries s.events .writing i)
    (guarded : s.Guarded i) (locked : s.sync.Locked) (releases : orders.lower.releases = true)
    (move : State.Moves kind s.sync action next) (down : next.writing = false) :
    Carries (s.follow orders action next).events .writing i := by
  cases move with
  | raise here => cases down
  | @lower t id here =>
      have owner := (locked.owner_iff t).mpr (.inl (by rw [here]; rfl))
      exact carries_of_release (.store .writing orders.lower) (guarded.knows owner)
        (by simp [State.event, State.operation, here]) releases
  | _ => exact writing_follow (announced down) fun t acts => by simp_all

/-- A guard that stays where it is follows what it has followed. -/
theorem Follows.follow {guard : ReadGuard Thread} (follows : s.Follows guard i)
    (stays : ∀ receiver, action ≠ .send guard.id receiver) :
    (s.follow orders action next).Follows guard i := by
  have offered : guard.id ∈ (s.follow orders action next).offered ↔ guard.id ∈ s.offered := by
    cases action with
    | send id receiver =>
        have other : guard.id ≠ id := fun same => stays receiver (same ▸ rfl)
        simp [Traced.follow, onTheWay, other]
    | _ => exact Iff.rfl
  by_cases away : guard.id ∈ s.offered
  · exact follows_of_carries (channel_follow (follows.carries away)) (offered.mpr away)
  · exact follows_of_knows (knows_follow (follows.knows away)) fun still => away (offered.mp still)

/-- The receiver of an iterator knows what it has followed. -/
theorem Follows.arrives {guard : ReadGuard Thread} {receiver : Thread}
    (follows : s.Follows guard i) (away : guard.id ∈ s.offered) :
    (s.follow orders (.send guard.id receiver) next).Follows
      { guard with holder := receiver } i := by
  refine follows_of_knows ?_ (by simp [Traced.follow, onTheWay])
  exact knows_of_acquire (.load (.channel guard.id) .acquire) (follows.carries away) rfl rfl

/-- A call that leaves its body gives its slot back, or to the guard it returns. -/
theorem kept_of_reading {t : Thread} {call : ReadCall} {count : Nat}
    (here : s.sync.pc t = .reading call count) (knows : Knows s.events t i)
    (identified : s.sync.Identified)
    (offered_live : ∀ id ∈ s.offered, ∃ guard ∈ s.sync.readGuards, guard.id = id)
    (releases : orders.release.releases = true) (move : State.Moves kind s.sync action next) :
    (s.follow orders action next).Kept count i := by
  have stays (still : next.pc t = .reading call count) :
      (s.follow orders action next).Kept count i :=
    .inr (.inl ⟨t, call, still, knows_follow knows⟩)
  cases move with
  | @leaveRead u left position leaves =>
      by_cases mine : t = u
      · subst mine
        obtain ⟨rfl, rfl⟩ : left = call ∧ position = count := by simpa [here] using leaves.symm
        exact .inl (carries_of_release (.update (.counter position) orders.release) knows
          (by simp [State.event, here]) releases)
      · exact stays (by rw [State.goto_pc_of_ne _ _ _ _ mine]; exact here)
  | @returnRead u returns position guard leaves =>
      by_cases mine : t = u
      · subst mine
        obtain ⟨rfl, rfl⟩ : returns = call ∧ position = count := by simpa [here] using leaves.symm
        refine .inr (.inr ⟨_, List.mem_cons_self, rfl, follows_of_knows (knows_follow knows) ?_⟩)
        intro away
        obtain ⟨other, live, same⟩ := offered_live returns.id away
        exact identified.readGuard_ne t returns.id (by rw [here]; rfl) other live same
      · exact stays (by rw [State.goto_pc_of_ne _ _ _ _ mine]; exact here)
  | _ => exact stays (by grind -ring -linarith)

/-- A guard keeps its section until it gives the slot back. -/
theorem kept_of_guard {guard : ReadGuard Thread} (live : guard ∈ s.sync.readGuards)
    (follows : s.Follows guard i) (allowed : s.Allows action)
    (nodup : (s.sync.readGuards.map (·.id)).Nodup) (releases : orders.release.releases = true)
    (move : State.Moves kind s.sync action next) :
    (s.follow orders action next).Kept guard.count i := by
  cases move with
  | @dropRead t dropped idle liveDropped held =>
      by_cases same : guard = dropped
      · subst same held
        exact .inl (carries_of_release (.update (.counter guard.count) orders.release)
          (follows.knows allowed) (State.event_dropRead nodup live) releases)
      · have stays : guard ∈ s.sync.readGuards.erase dropped :=
          (List.mem_erase_of_ne same).mpr live
        exact .inr (.inr ⟨guard, stays, rfl, follows.follow (by simp)⟩)
  | @send receiver sent idle liveSent =>
      by_cases same : guard = sent
      · subst same
        exact .inr (.inr ⟨_, List.mem_cons_self, rfl, follows.arrives allowed⟩)
      · have stays : guard ∈ s.sync.readGuards.erase sent := (List.mem_erase_of_ne same).mpr live
        refine .inr (.inr ⟨guard, .tail _ stays, rfl, follows.follow fun other acts => same ?_⟩)
        exact List.inj_on_of_nodup_map nodup live liveSent (by injection acts; simp_all)
  | returnRead here => exact .inr (.inr ⟨guard, .tail _ live, rfl, follows.follow (by simp)⟩)
  | _ => exact .inr (.inr ⟨guard, live, rfl, follows.follow (by simp)⟩)

/-- What is kept stays kept. -/
theorem Kept.follow {count : Nat} (kept : s.Kept count i) (safe : Protected s.sync)
    (offered_live : ∀ id ∈ s.offered, ∃ guard ∈ s.sync.readGuards, guard.id = id)
    (allowed : s.Allows action) (releases : orders.release.releases = true)
    (move : State.Moves kind s.sync action next) : (s.follow orders action next).Kept count i := by
  rcases kept with carries | ⟨t, call, here, knows⟩ | ⟨guard, live, rfl, follows⟩
  · exact .inl (counter_follow carries)
  · exact kept_of_reading here knows safe.identified offered_live releases move
  · exact kept_of_guard live follows allowed safe.nodup releases move

omit [DecidableEq Thread] in
/-- A quiet counter keeps what it carries. -/
theorem Kept.carries {count : Nat} (kept : s.Kept count i) (quiet : s.sync.Quiet count) :
    Carries s.events (.counter count) i := by
  rcases kept with carries | ⟨t, call, here, -⟩ | ⟨guard, live, same, -⟩
  · exact carries
  · exact absurd here (quiet.2 t call)
  · exact absurd same (guardsOn_eq_zero.mp quiet.1 guard live)

namespace Ordered

variable (ordered : s.Ordered) (safe : Protected s.sync) (allowed : s.Allows action)
variable (move : State.Moves kind s.sync action next)

include ordered in
theorem raceFree_follow : RaceFree (s.follow orders action next).events := by
  cases performed : s.sync.event orders action with
  | none => simpa [Traced.follow, performed] using ordered.raceFree
  | some event =>
      rw [follow_events performed]
      obtain ⟨atomic, elsewhere⟩ := State.event_atomic performed
      refine ordered.raceFree.append fun i old here conflicts => ?_
      obtain ⟨same, -, plain | plain⟩ := conflicts
      · exact absurd ((ordered.plain_iff i old here).mp plain) (same ▸ elsewhere)
      · rw [atomic] at plain
        cases plain

include ordered in
theorem plain_iff_follow (i : Nat) (event : MemoryEvent Thread Location)
    (here : (s.follow orders action next).events[i]? = some event) :
    event.operation.plain = true ↔ event.operation.location = .dirty := by
  rcases getElem?_append_cases here with old | ⟨-, new⟩
  · exact ordered.plain_iff i event old
  · obtain ⟨atomic, elsewhere⟩ := State.event_atomic (Option.mem_toList.mp new)
    simp [atomic, elsewhere]

include ordered allowed move in
theorem offered_live_follow (id : Nat) (away : id ∈ (s.follow orders action next).offered) :
    ∃ guard ∈ next.readGuards, guard.id = id := by
  cases move with
  | @dropRead t dropped idle liveDropped =>
      obtain ⟨guard, live, rfl⟩ := ordered.offered_live id away
      have other : guard ≠ dropped := fun same => allowed (same ▸ away)
      exact ⟨guard, (List.mem_erase_of_ne other).mpr live, rfl⟩
  | @send receiver sent idle liveSent =>
      obtain ⟨away, other⟩ : id ∈ s.offered ∧ id ≠ sent.id := by
        simpa [Traced.follow, onTheWay] using away
      obtain ⟨guard, live, rfl⟩ := ordered.offered_live id away
      have apart : guard ≠ sent := fun same => other (congrArg (·.id) same)
      exact ⟨guard, .tail _ ((List.mem_erase_of_ne apart).mpr live), rfl⟩
  | returnRead here =>
      obtain ⟨guard, live, same⟩ := ordered.offered_live id away
      exact ⟨guard, .tail _ live, same⟩
  | _ => exact ordered.offered_live id away

include ordered move in
theorem write_read_follow (acquires : orders.load.acquires = true) (t : Thread) (call : ReadCall)
    (count : Nat) (here : next.pc t = .reading call count) (i : Nat)
    (wrote : s.WroteAt i) :
    Knows (s.follow orders action next).events t i := by
  by_cases before : s.sync.pc t = .reading call count
  · exact knows_follow (ordered.write_read t call count before i wrote)
  · cases move with
    | @loadFalse u loaded position there down =>
        by_cases mine : t = u
        · subst mine
          exact knows_of_acquire (.load .writing orders.load)
            (ordered.write_announced down i wrote)
            (by simp [State.event, State.operation, there]) acquires
        · exact absurd (by rwa [State.goto_pc_of_ne _ _ _ _ mine] at here) before
    | _ => grind -ring -linarith

include ordered safe allowed move in
theorem write_followed_follow (guard : ReadGuard Thread) (live : guard ∈ next.readGuards) (i : Nat)
    (wrote : s.WroteAt i) :
    (s.follow orders action next).Follows guard i := by
  have followed := ordered.write_followed
  cases move with
  | @returnRead t call count returned here =>
      rcases List.mem_cons.mp live with rfl | live
      · refine follows_of_knows (knows_follow (ordered.write_read t call count here i wrote)) ?_
        intro away
        obtain ⟨other, live, same⟩ := ordered.offered_live call.id away
        exact safe.identified.readGuard_ne t call.id (by rw [here]; rfl) other live same
      · exact (followed guard live i wrote).follow (by simp)
  | @dropRead t dropped idle liveDropped =>
      exact (followed guard (List.mem_of_mem_erase live) i wrote).follow (by simp)
  | @send receiver sent idle liveSent =>
      rcases List.mem_cons.mp live with rfl | live
      · exact (followed sent liveSent i wrote).arrives allowed
      · refine (followed guard (List.mem_of_mem_erase live) i wrote).follow fun other acts => ?_
        have same : sent.id = guard.id := by injection acts
        obtain rfl :=
          List.inj_on_of_nodup_map safe.nodup liveSent (List.mem_of_mem_erase live) same
        exact (safe.nodup.of_map).not_mem_erase live
  | _ => exact (followed guard live i wrote).follow (by simp)

include ordered safe allowed move in
theorem read_kept_follow (releases : orders.release.releases = true) (i : Nat)
    (read : s.ReadAt i) : (s.follow orders action next).Guarded i ∨
      ∃ count < next.registry.length, (s.follow orders action next).Kept count i := by
  rcases ordered.read_kept i read with guarded | ⟨count, below, kept⟩
  · exact .inl (guarded.follow safe.sound.locked move)
  · exact .inr ⟨count, Nat.lt_of_lt_of_le below move.registry_le,
      kept.follow safe ordered.offered_live allowed releases move⟩

include ordered safe allowed move in
theorem read_scanned_follow (releases : orders.release.releases = true)
    (acquires : orders.scan.acquires = true) (t : Thread) (call : WriteCall) (position : Nat)
    (here : next.pc t = .scan call position) (i : Nat) (read : s.ReadAt i) :
    (s.follow orders action next).Guarded i ∨ ∃ count < next.registry.length,
      position ≤ count ∧ (s.follow orders action next).Kept count i := by
  have guards (guarded : s.Guarded i) : (s.follow orders action next).Guarded i :=
    guarded.follow safe.sound.locked move
  have keeps (count : Nat) (kept : s.Kept count i) : (s.follow orders action next).Kept count i :=
    kept.follow safe ordered.offered_live allowed releases move
  have longer := move.registry_le
  by_cases before : s.sync.pc t = .scan call position
  · rcases ordered.read_scanned t call position before i read with
      guarded | ⟨count, below, above, kept⟩
    · exact .inl (guards guarded)
    · exact .inr ⟨count, Nat.lt_of_lt_of_le below longer, above, keeps count kept⟩
  · cases move with
    | @scanLock u locks there free =>
        by_cases mine : t = u
        · subst mine
          obtain ⟨rfl, rfl⟩ : locks = call ∧ 0 = position := by simpa using here
          rcases ordered.read_kept i read with guarded | ⟨count, below, kept⟩
          · exact .inl (guards guarded)
          · exact .inr ⟨count, below, Nat.zero_le _, keeps count kept⟩
        · exact absurd (by rwa [State.goto_pc_of_ne _ _ _ _ mine] at here) before
    | @scanZero u scans passed there zero =>
        by_cases mine : t = u
        · subst mine
          obtain ⟨rfl, rfl⟩ : scans = call ∧ passed + 1 = position := by simpa using here
          obtain ⟨inside, -⟩ := List.getElem?_eq_some_iff.mp zero
          rcases ordered.read_scanned t scans passed there i read with
            guarded | ⟨count, below, above, kept⟩
          · exact .inl (guards guarded)
          · rcases Nat.eq_or_lt_of_le above with rfl | above
            · -- The counter is zero, so it carries what it has kept.
              have quiet := State.quiet_of_zero safe.sound.registered safe.sound.accounted zero
              have owner := (safe.sound.locked.owner_iff t).mpr (.inl (by rw [there]; rfl))
              refine .inl (guarded_of_knows (t := t) ?_ owner)
              exact knows_of_acquire (.load (.counter passed) orders.scan) (kept.carries quiet)
                (by simp [State.event, State.operation, there, inside]) acquires
            · exact .inr ⟨count, below, above, keeps count kept⟩
        · exact absurd (by rwa [State.goto_pc_of_ne _ _ _ _ mine] at here) before
    | _ => grind -ring -linarith

include ordered safe move in
theorem read_drained_follow
    (drained : (∃ t, (next.pc t).drained = true) ∨ next.writeGuards ≠ []) (i : Nat)
    (read : s.ReadAt i) : (s.follow orders action next).Guarded i := by
  refine Guarded.follow ?_ safe.sound.locked move
  by_cases before : (∃ t, (s.sync.pc t).drained = true) ∨ s.sync.writeGuards ≠ []
  · exact ordered.read_drained before i read
  · cases move with
    | @scanEnd t call position here finished =>
        have past := List.getElem?_eq_none_iff.mp finished
        rcases ordered.read_scanned t call position here i read with
          guarded | ⟨count, below, above, -⟩
        · exact guarded
        · omega
    | _ => grind -ring -linarith

/-- A step of the container keeps the accesses in order. -/
theorem follow (suffice : orders.Suffice) (ordered : s.Ordered) (safe : Protected s.sync)
    (allowed : s.Allows action) (move : State.Moves kind s.sync action next) :
    (s.follow orders action next).Ordered where
  raceFree := ordered.raceFree_follow
  plain_iff := ordered.plain_iff_follow
  offered_live := ordered.offered_live_follow allowed move
  write_guarded i wrote :=
    (ordered.write_guarded i (wroteAt_follow.mp wrote)).follow safe.sound.locked move
  write_announced down i wrote := by
    have wrote := wroteAt_follow.mp wrote
    exact announced_follow (fun down => ordered.write_announced down i wrote)
      (ordered.write_guarded i wrote) safe.sound.locked suffice.lower_releases move down
  write_read t call count here i wrote :=
    ordered.write_read_follow move suffice.load_acquires t call count here i
      (wroteAt_follow.mp wrote)
  write_followed guard live i wrote :=
    ordered.write_followed_follow safe allowed move guard live i (wroteAt_follow.mp wrote)
  read_kept i read :=
    ordered.read_kept_follow safe allowed move suffice.release_releases i (readAt_follow.mp read)
  read_scanned t call position here i read :=
    ordered.read_scanned_follow safe allowed move suffice.release_releases suffice.scan_acquires t
      call position here i (readAt_follow.mp read)
  read_drained drained i read :=
    ordered.read_drained_follow safe move drained i (readAt_follow.mp read)

end Ordered

/-- What one action does to a container and its content. -/
inductive Moves (kind : Kind) (orders : Orderings) (s : Traced Thread w) :
    TracedAction Thread → Traced Thread w → Prop where
  | sync {action : Action Thread} {next : State Thread w} (allowed : s.Allows action)
      (stepped : s.sync.step kind action = some next) :
      Moves kind orders s (.sync action) (s.follow orders action next)
  | write {t} (may : s.MayWrite t) :
      Moves kind orders s (.access t true) (s.perform t (.write .dirty))
  | read {t} (may : s.MayRead t) :
      Moves kind orders s (.access t false) (s.perform t (.read .dirty))
  | offer {t id} (may : s.MayOffer kind t id) :
      Moves kind orders s (.offer t id) (s.giveAway t id)

theorem moves_of_step {action : TracedAction Thread} {next : Traced Thread w}
    (stepped : s.step kind orders action = some next) : Moves kind orders s action next := by
  cases action with
  | sync action =>
      obtain ⟨allowed, followed⟩ := Option.ite_none_right_eq_some.mp stepped
      obtain ⟨after, moved, rfl⟩ := Option.map_eq_some_iff.mp followed
      exact .sync allowed moved
  | access t writes =>
      cases writes with
      | true =>
          obtain ⟨may, ⟨⟩⟩ := Option.ite_none_right_eq_some.mp stepped
          exact .write may
      | false =>
          obtain ⟨may, ⟨⟩⟩ := Option.ite_none_right_eq_some.mp stepped
          exact .read may
  | offer t id =>
      obtain ⟨may, ⟨⟩⟩ := Option.ite_none_right_eq_some.mp stepped
      exact .offer may

/-- Accesses and channels leave the container as it is. -/
theorem reachable_sync (reachable : (traced kind orders Thread w).Reachable s) :
    (container kind Thread w).Reachable s.sync := by
  refine reachable.invariant (fun s => (container kind Thread w).Reachable s.sync) ?_ ?_
  · rintro _ rfl
    exact .initial rfl
  · intro s action next _ prior stepped
    cases moves_of_step stepped with
    | sync allowed moved => exact prior.step moved
    | write may | read may | offer may => exact prior

theorem protected_of_reachable {s : State Thread w}
    (reachable : (container kind Thread w).Reachable s) : Protected s where
  sound := State.sound_of_reachable reachable
  identified := State.identified_of_reachable reachable
  nodup := State.nodup_of_reachable reachable

theorem ordered_of_reachable (suffice : orders.Suffice)
    (reachable : (traced kind orders Thread w).Reachable s) : s.Ordered := by
  refine reachable.invariant Ordered (fun _ start => start ▸ .new) ?_
  intro s action next prior ordered stepped
  have safe := protected_of_reachable (reachable_sync prior)
  cases moves_of_step stepped with
  | sync allowed moved => exact ordered.follow suffice safe allowed (State.moves_of_step moved)
  | write may => exact ordered.write safe may
  | read may => exact ordered.read safe may
  | offer may =>
      obtain ⟨-, here, -, guard, live, rfl, rfl, -⟩ := may
      exact ordered.offer safe live here

end Traced

/-- With the orderings of the source, for every container kind, any threads and any
interleaving: whenever two accesses to the content conflict, made in the body of a
method or through a guard, also one that was sent to another thread, the earlier
one happens before the later one. `Index::index` and `get_uncheck` read the content
without a section, and are not among these accesses. -/
theorem accesses_race_free (kind : Kind) {Thread : Type} [DecidableEq Thread] {w : Nat}
    {s : Traced Thread w} (reachable : (traced kind .source Thread w).Reachable s) :
    RaceFree s.events :=
  (Traced.ordered_of_reachable .source reachable).raceFree

/-- A `len` by one thread, and then an `insert` by another one. -/
def lenThenInsert {Thread : Type} (t u : Thread) : List (TracedAction Thread) :=
  [.sync (.read t .len), .sync (.step t), .sync (.step t), .sync (.step t), .sync (.step t),
    .sync (.step t), .sync (.step t), .access t false, .sync (.leaveRead t none),
    .sync (.write u .insert), .sync (.step u), .sync (.step u), .sync (.step u),
    .sync (.step u), .sync (.step u), .sync (.step u), .access u true]

/-- What `len` reads happens before what `insert` writes. -/
theorem len_happens_before_insert : ∃ s : Traced (Fin 2) 64,
    (traced .hashMap .source (Fin 2) 64).Reachable s ∧
      s.events[4]? = some ⟨0, .read .dirty⟩ ∧ s.events[11]? = some ⟨1, .write .dirty⟩ ∧
        HappensBefore s.events 4 11 := by
  obtain ⟨s, reachable, met⟩ := System.exists_reachable_of_execute
    (fun s : Traced (Fin 2) 64 => s.events[4]? == some ⟨0, .read .dirty⟩ &&
      s.events[11]? == some ⟨1, .write .dirty⟩)
    (show (System.execute (Traced.step .hashMap .source) (.new (Fin 2) 64)
      (lenThenInsert 0 1)).any _ = true by decide +kernel)
  simp only [Bool.and_eq_true, beq_iff_eq] at met
  obtain ⟨reads, writes⟩ := met
  exact ⟨s, reachable, reads, writes, accesses_race_free .hashMap reachable 4 11 _ _ (by decide)
    reads writes (by decide)⟩

end DarkStd.Sync
