import Mathlib.Data.List.Range
import DarkStd.Sync.Races
import DarkStd.Sync.Solo

/-!
# Which orderings it takes

Four orderings of the source keep the accesses to the content in order: those of
the `store` that lowers the flag and of the `load` that finds it down, and those
of the `fetch_sub` that ends a section and of the `load` in the scan. If the first
pair does not synchronise, a `len` after an `insert` is a race; if the second
does not, an `insert` after a `len` is one.

That they are enough is true only while no update is missed, and for that the
`fetch_add`, the `load` after it, the `store` that raises the flag and the `load`
in the scan are sequentially consistent. With weaker ones a reader and a writer
can each miss the other (store buffering), which is no run of this model.
-/

namespace DarkStd.Sync

open DarkStd.Semantics

/-- An operation on the last counter of a registry. -/
theorem modify_append_length {Counter : Type} (counters : List Counter) (counter : Counter)
    (change : Counter → Counter) :
    (counters ++ [counter]).modify counters.length change = counters ++ [change counter] := by
  induction counters with
  | nil => rfl
  | cons first counters inductionHypothesis => simpa using inductionHypothesis

namespace Traced

variable {Thread : Type} [DecidableEq Thread] {w : Nat} {kind : Kind} {orders : Orderings}
variable {b next : State Thread w} {t : Thread} {away : List Nat}
variable {events : List (MemoryEvent Thread Location)} {call : WriteCall} {reads : ReadCall}

/-- A step of the container, with what it does to memory. -/
theorem continues_of_sync (action : Action Thread) {added : List (MemoryEvent Thread Location)}
    (stepped : b.step kind action = some next) (performed : (b.event orders action).toList = added)
    (allowed : Allows ⟨b, away, events⟩ action)
    (stays : onTheWay ⟨b, away, events⟩ action = away) :
    (traced kind orders Thread w).Continues ⟨b, away, events⟩ ⟨next, away, events ++ added⟩ := by
  have moved : (traced kind orders Thread w).Step ⟨b, away, events⟩ (.sync action)
      ⟨next, away, events ++ added⟩ := by
    refine Option.ite_none_right_eq_some.mpr ⟨allowed, ?_⟩
    refine Option.map_eq_some_iff.mpr ⟨next, stepped, ?_⟩
    rw [follow, performed, stays]
  exact .single moved

theorem continues_of_event {operation : Operation Location} (advanced : b.advance t = some next)
    (performed : b.event orders (.step t) = some ⟨t, operation⟩) :
    (traced kind orders Thread w).Continues ⟨b, away, events⟩
      ⟨next, away, events ++ [⟨t, operation⟩]⟩ :=
  continues_of_sync (.step t) advanced (by rw [performed]; rfl) trivial rfl

/-- A step that does nothing to memory. -/
theorem continues_of_silent (action : Action Thread) (stepped : b.step kind action = some next)
    (silent : b.event orders action = none) (allowed : Allows ⟨b, away, events⟩ action)
    (stays : onTheWay ⟨b, away, events⟩ action = away) :
    (traced kind orders Thread w).Continues ⟨b, away, events⟩ ⟨next, away, events⟩ := by
  have run : (traced kind orders Thread w).Continues ⟨b, away, events⟩
      ⟨next, away, events ++ []⟩ :=
    continues_of_sync action stepped (by rw [silent]; rfl) allowed stays
  rwa [List.append_nil] at run

theorem continues_of_write (may : MayWrite ⟨b, away, events⟩ t) :
    (traced kind orders Thread w).Continues ⟨b, away, events⟩
      ⟨b, away, events ++ [⟨t, .write .dirty⟩]⟩ := by
  have moved : (traced kind orders Thread w).Step ⟨b, away, events⟩ (.access t true)
      ⟨b, away, events ++ [⟨t, .write .dirty⟩]⟩ :=
    Option.ite_none_right_eq_some.mpr ⟨may, rfl⟩
  exact .single moved

theorem continues_of_read (may : MayRead ⟨b, away, events⟩ t) :
    (traced kind orders Thread w).Continues ⟨b, away, events⟩
      ⟨b, away, events ++ [⟨t, .read .dirty⟩]⟩ := by
  have moved : (traced kind orders Thread w).Step ⟨b, away, events⟩ (.access t false)
      ⟨b, away, events ++ [⟨t, .read .dirty⟩]⟩ :=
    Option.ite_none_right_eq_some.mpr ⟨may, rfl⟩
  exact .single moved

/-- What a scan of so many counters does to memory. -/
def scanning (orders : Orderings) (t : Thread) (counters : Nat) :
    List (MemoryEvent Thread Location) :=
  (List.range counters).map fun count => ⟨t, .load (.counter count) orders.scan⟩

/-- What a `begin_write` does to memory that finds so many counters, all zero. -/
def beginWrite (orders : Orderings) (t : Thread) (counters : Nat) :
    List (MemoryEvent Thread Location) :=
  [⟨t, .update .write .acquire⟩, ⟨t, .store .writing orders.raise⟩,
    ⟨t, .update .registry .acquire⟩] ++ scanning orders t counters ++
      [⟨t, .store .registry .release⟩]

/-- What a first `begin_read` does to memory that finds the flag down. -/
def beginRead (orders : Orderings) (t : Thread) (count : Nat) :
    List (MemoryEvent Thread Location) :=
  [⟨t, .update .registry .acquire⟩, ⟨t, .store .registry .release⟩,
    ⟨t, .update (.counter count) orders.add⟩, ⟨t, .load .writing orders.load⟩]

/-- The scan passes over counters that are zero. -/
theorem continues_to_scan {position : Nat}
    (zero : ∀ earlier < position, b.registry[earlier]? = some 0) :
    (traced kind orders Thread w).Continues ⟨b.goto t (.scan call 0), away, events⟩
      ⟨b.goto t (.scan call position), away, events ++ scanning orders t position⟩ := by
  induction position with
  | zero => simpa [scanning] using System.Continues.refl _
  | succ position inductionHypothesis =>
      refine (inductionHypothesis fun earlier below => zero earlier (Nat.lt_succ_of_lt below)).trans
        ?_
      have loaded : b.registry[position]? = some 0 := zero position (Nat.lt_succ_self _)
      obtain ⟨inside, -⟩ := List.getElem?_eq_some_iff.mp loaded
      have longer : scanning orders t (position + 1) =
          scanning orders t position ++ [⟨t, .load (.counter position) orders.scan⟩] := by
        simp [scanning, List.range_succ]
      rw [longer, ← List.append_assoc]
      refine continues_of_event ?_ ?_
      · simp [State.advance, loaded]
      · simp [State.event, State.operation, inside]

/-- A writer that meets nobody gets into its body. -/
theorem continues_to_writing (free : b.write = none) (unlocked : b.registryLock = none)
    (zero : ∀ counter ∈ b.registry, counter = 0) :
    (traced kind orders Thread w).Continues ⟨b.goto t (.acquire call), away, events⟩
      ⟨{ b with write := some t, writing := true }.goto t (.writing call), away,
        events ++ beginWrite orders t b.registry.length⟩ := by
  let owned : State Thread w := { b with write := some t }
  let raised : State Thread w := { owned with writing := true }
  let locked : State Thread w := { raised with registryLock := some t }
  have acquires (events) : (traced kind orders Thread w).Continues
      ⟨b.goto t (.acquire call), away, events⟩
        ⟨owned.goto t (.raise call), away, events ++ [⟨t, .update .write .acquire⟩]⟩ :=
    continues_of_event (by simp [State.advance, free, State.goto, owned])
      (by simp [State.event, State.operation])
  have raises (events) : (traced kind orders Thread w).Continues
      ⟨owned.goto t (.raise call), away, events⟩
        ⟨raised.goto t (.scanLock call), away, events ++ [⟨t, .store .writing orders.raise⟩]⟩ :=
    continues_of_event (by simp [State.advance, State.goto, raised])
      (by simp [State.event, State.operation])
  have locks (events) : (traced kind orders Thread w).Continues
      ⟨raised.goto t (.scanLock call), away, events⟩
        ⟨locked.goto t (.scan call 0), away, events ++ [⟨t, .update .registry .acquire⟩]⟩ :=
    continues_of_event (by simp [State.advance, State.goto, unlocked, owned, raised, locked])
      (by simp [State.event, State.operation])
  have scans (events) : (traced kind orders Thread w).Continues
      ⟨locked.goto t (.scan call 0), away, events⟩
        ⟨locked.goto t (.scan call b.registry.length), away,
          events ++ scanning orders t b.registry.length⟩ :=
    continues_to_scan fun position below => by
      have below : position < b.registry.length := below
      change b.registry[position]? = some 0
      rw [List.getElem?_eq_getElem below, zero _ (List.getElem_mem _)]
  have ends (events) : (traced kind orders Thread w).Continues
      ⟨locked.goto t (.scan call b.registry.length), away, events⟩
        ⟨locked.goto t (.scanned call true), away, events⟩ :=
    continues_of_silent (.step t) (by simp [State.step, State.advance, locked, raised, owned])
      (by simp [State.event, State.operation, locked, raised, owned]) trivial rfl
  have enters (events) : (traced kind orders Thread w).Continues
      ⟨locked.goto t (.scanned call true), away, events⟩
        ⟨raised.goto t (.writing call), away, events ++ [⟨t, .store .registry .release⟩]⟩ :=
    continues_of_event (by simp [State.advance, State.goto, unlocked, owned, raised, locked])
      (by simp [State.event, State.operation])
  have run := ((((acquires events).trans (raises _)).trans (locks _)).trans (scans _)).trans
    ((ends _).trans (enters _))
  simpa [beginWrite] using run

/-- The drop of a `WriteLock`. -/
theorem continues_to_dropped {id : Nat} :
    (traced kind orders Thread w).Continues ⟨b.goto t (.lower id), away, events⟩
      ⟨{ b with writing := false, write := none }.goto t .idle, away,
        events ++ [⟨t, .store .writing orders.lower⟩, ⟨t, .store .write .release⟩]⟩ := by
  let lowered : State Thread w := { b with writing := false }
  have lowers (events) : (traced kind orders Thread w).Continues
      ⟨b.goto t (.lower id), away, events⟩
        ⟨lowered.goto t (.unlock id), away, events ++ [⟨t, .store .writing orders.lower⟩]⟩ :=
    continues_of_event (by simp [State.advance, State.goto, lowered])
      (by simp [State.event, State.operation])
  have unlocks (events) : (traced kind orders Thread w).Continues
      ⟨lowered.goto t (.unlock id), away, events⟩
        ⟨{ lowered with write := none }.goto t .idle, away,
          events ++ [⟨t, .store .write .release⟩]⟩ :=
    continues_of_event (by simp [State.advance, State.goto])
      (by simp [State.event, State.operation])
  simpa using (lowers events).trans (unlocks _)

/-- A thread that reads for the first time, with no writer around, gets into its body. -/
theorem continues_to_reading (missing : b.slots t = none) (unlocked : b.registryLock = none)
    (down : b.writing = false) :
    (traced kind orders Thread w).Continues ⟨b.goto t (.slot reads), away, events⟩
      ⟨{ b with
          registry := b.registry ++ [1]
          slots := Function.update b.slots t (some b.registry.length) }.goto t
            (.reading reads b.registry.length), away,
        events ++ beginRead orders t b.registry.length⟩ := by
  let locked : State Thread w := { b with registryLock := some t }
  let pushed : State Thread w := { locked with
    registry := b.registry ++ [0]
    slots := Function.update b.slots t (some b.registry.length) }
  let released : State Thread w := { pushed with registryLock := none }
  let added : State Thread w := { released with registry := b.registry ++ [1] }
  have looks (events) : (traced kind orders Thread w).Continues
      ⟨b.goto t (.slot reads), away, events⟩ ⟨b.goto t (.register reads), away, events⟩ :=
    continues_of_silent (.step t) (by simp [State.step, State.advance, missing])
      (by simp [State.event, State.operation]) trivial rfl
  have locks (events) : (traced kind orders Thread w).Continues
      ⟨b.goto t (.register reads), away, events⟩
        ⟨locked.goto t (.push reads), away, events ++ [⟨t, .update .registry .acquire⟩]⟩ :=
    continues_of_event (by simp [State.advance, State.goto, unlocked, locked])
      (by simp [State.event, State.operation])
  have pushes (events) : (traced kind orders Thread w).Continues
      ⟨locked.goto t (.push reads), away, events⟩
        ⟨pushed.goto t (.release reads b.registry.length), away, events⟩ :=
    continues_of_silent (.step t)
      (by simp [State.step, State.advance, State.goto, locked, pushed])
      (by simp [State.event, State.operation]) trivial rfl
  have releases (events) : (traced kind orders Thread w).Continues
      ⟨pushed.goto t (.release reads b.registry.length), away, events⟩
        ⟨released.goto t (.add reads b.registry.length), away,
          events ++ [⟨t, .store .registry .release⟩]⟩ :=
    continues_of_event (by simp [State.advance, State.goto, released])
      (by simp [State.event, State.operation])
  have adds (events) : (traced kind orders Thread w).Continues
      ⟨released.goto t (.add reads b.registry.length), away, events⟩
        ⟨added.goto t (.load reads b.registry.length), away,
          events ++ [⟨t, .update (.counter b.registry.length) orders.add⟩]⟩ :=
    continues_of_event
      (by simp [State.advance, State.goto, State.fetchAdd, modify_append_length, pushed, released,
        added])
      (by simp [State.event, State.operation])
  have loads (events) : (traced kind orders Thread w).Continues
      ⟨added.goto t (.load reads b.registry.length), away, events⟩
        ⟨added.goto t (.reading reads b.registry.length), away,
          events ++ [⟨t, .load .writing orders.load⟩]⟩ :=
    continues_of_event (by simp [State.advance, down, locked, pushed, released, added])
      (by simp [State.event, State.operation])
  have run := ((looks events).trans (locks _)).trans
    (((pushes _).trans (releases _)).trans ((adds _).trans (loads _)))
  have same : added = { b with
      registry := b.registry ++ [1]
      slots := Function.update b.slots t (some b.registry.length) } := by
    simp [added, released, pushed, locked, unlocked]
  rw [← same]
  simpa [beginRead] using run

/-- What an `insert` does to memory that finds so many counters, all zero. -/
def inserting (orders : Orderings) (t : Thread) (counters : Nat) :
    List (MemoryEvent Thread Location) :=
  beginWrite orders t counters ++
    [⟨t, .write .dirty⟩, ⟨t, .store .writing orders.lower⟩, ⟨t, .store .write .release⟩]

/-- What a first `len` does to memory that finds the flag down. -/
def measuring (orders : Orderings) (t : Thread) (count : Nat) :
    List (MemoryEvent Thread Location) :=
  beginRead orders t count ++
    [⟨t, .read .dirty⟩, ⟨t, .update (.counter count) orders.release⟩]

/-- A thread that meets nobody inserts. -/
theorem continues_to_inserted (idle : b.pc t = .idle) (free : b.write = none)
    (unlocked : b.registryLock = none) (zero : ∀ counter ∈ b.registry, counter = 0) :
    (traced kind orders Thread w).Continues ⟨b, away, events⟩
      ⟨{ b with write := none, writing := false, nextCall := b.nextCall + 1 }, away,
        events ++ inserting orders t b.registry.length⟩ := by
  let called : State Thread w := { b with nextCall := b.nextCall + 1 }
  let inside : State Thread w := { called with write := some t, writing := true }
  have calls (events) : (traced kind orders Thread w).Continues ⟨b, away, events⟩
      ⟨called.goto t (.acquire ⟨b.nextCall, .insert⟩), away, events⟩ :=
    continues_of_silent (.write t .insert) (by simp [State.step, idle, called, Kind.locks]) rfl
      trivial rfl
  have begins (events) : (traced kind orders Thread w).Continues
      ⟨called.goto t (.acquire ⟨b.nextCall, .insert⟩), away, events⟩
        ⟨inside.goto t (.writing ⟨b.nextCall, .insert⟩), away,
          events ++ beginWrite orders t b.registry.length⟩ :=
    continues_to_writing (b := called) free unlocked zero
  have writes (events) : (traced kind orders Thread w).Continues
      ⟨inside.goto t (.writing ⟨b.nextCall, .insert⟩), away, events⟩
        ⟨inside.goto t (.writing ⟨b.nextCall, .insert⟩), away, events ++ [⟨t, .write .dirty⟩]⟩ :=
    continues_of_write (.inl (by simp [Pc.isWriting]))
  have leaves (events) : (traced kind orders Thread w).Continues
      ⟨inside.goto t (.writing ⟨b.nextCall, .insert⟩), away, events⟩
        ⟨inside.goto t (.lower b.nextCall), away, events⟩ :=
    continues_of_silent (.leaveWrite t none) (by simp [State.step, WriteMethod.mayRelease]) rfl
      trivial rfl
  have drops (events) : (traced kind orders Thread w).Continues
      ⟨inside.goto t (.lower b.nextCall), away, events⟩
        ⟨{ inside with writing := false, write := none }.goto t .idle, away,
          events ++ [⟨t, .store .writing orders.lower⟩, ⟨t, .store .write .release⟩]⟩ :=
    continues_to_dropped
  have run := (((calls events).trans (begins _)).trans (writes _)).trans
    ((leaves _).trans (drops _))
  rw [State.goto_of_eq (by exact idle)] at run
  simpa [inserting, inside, called] using run

/-- A thread that meets nobody reads the length. -/
theorem continues_to_measured (wide : 0 < w) (idle : b.pc t = .idle) (missing : b.slots t = none)
    (unlocked : b.registryLock = none) (down : b.writing = false) :
    (traced kind orders Thread w).Continues ⟨b, away, events⟩
      ⟨{ b with
          registry := b.registry ++ [0]
          slots := Function.update b.slots t (some b.registry.length)
          nextCall := b.nextCall + 1 }, away,
        events ++ measuring orders t b.registry.length⟩ := by
  let called : State Thread w := { b with nextCall := b.nextCall + 1 }
  let inside : State Thread w := { called with
    registry := b.registry ++ [1]
    slots := Function.update b.slots t (some b.registry.length) }
  have room : b.HasRoom t := by
    have fits : 1 < 2 ^ w := Nat.one_lt_two_pow (Nat.ne_of_gt wide)
    simpa [State.HasRoom, State.guardsOf_eq_zero missing] using fits
  have calls (events) : (traced kind orders Thread w).Continues ⟨b, away, events⟩
      ⟨called.goto t (.slot ⟨b.nextCall, .len⟩), away, events⟩ :=
    continues_of_silent (.read t .len) (by simp [State.step, idle, room, called]) rfl trivial rfl
  have begins (events) : (traced kind orders Thread w).Continues
      ⟨called.goto t (.slot ⟨b.nextCall, .len⟩), away, events⟩
        ⟨inside.goto t (.reading ⟨b.nextCall, .len⟩ b.registry.length), away,
          events ++ beginRead orders t b.registry.length⟩ :=
    continues_to_reading (b := called) missing unlocked down
  have reads (events) : (traced kind orders Thread w).Continues
      ⟨inside.goto t (.reading ⟨b.nextCall, .len⟩ b.registry.length), away, events⟩
        ⟨inside.goto t (.reading ⟨b.nextCall, .len⟩ b.registry.length), away,
          events ++ [⟨t, .read .dirty⟩]⟩ :=
    continues_of_read (.inl (by simp [Pc.isReading]))
  have leaves (events) : (traced kind orders Thread w).Continues
      ⟨inside.goto t (.reading ⟨b.nextCall, .len⟩ b.registry.length), away, events⟩
        ⟨(inside.fetchSub b.registry.length).goto t .idle, away,
          events ++ [⟨t, .update (.counter b.registry.length) orders.release⟩]⟩ :=
    continues_of_sync (.leaveRead t none)
      (by simp [State.step, ReadMethod.mayRelease, State.fetchSub, State.goto])
      (by simp [State.event]) trivial rfl
  have run := ((calls events).trans (begins _)).trans ((reads _).trans (leaves _))
  rw [State.goto_of_eq (by exact idle)] at run
  simpa [measuring, inside, called, State.fetchSub, modify_append_length] using run

end Traced

section Results

open Traced

variable {Thread : Type} [DecidableEq Thread] {orders : Orderings} {t u : Thread}

omit [DecidableEq Thread] in
/-- What `insert` writes is not known to `len` unless the flag makes it known. -/
theorem insert_races_len (different : t ≠ u)
    (apart : ¬ (orders.lower.releases = true ∧ orders.load.acquires = true)) :
    ¬ RaceFree (inserting orders t 0 ++ measuring orders u 0) := by
  intro raceFree
  have happens := raceFree 4 11 ⟨t, .write .dirty⟩ ⟨u, .read .dirty⟩ (by decide) rfl rfl
    ⟨rfl, .inl rfl, .inl rfl⟩
  refine not_happensBefore_of_apart ?_ ?_ ?_ ?_ happens
  · simp [measuring, beginRead, different]
  · simpa [measuring, beginRead, Operation.releases, Operation.acquires, Operation.location]
      using apart
  · simp [beginWrite, scanning]
  · simp [beginWrite, scanning]

omit [DecidableEq Thread] in
/-- What `len` reads is not known to `insert` unless the counter makes it known. -/
theorem len_races_insert (different : t ≠ u)
    (apart : ¬ (orders.release.releases = true ∧ orders.scan.acquires = true)) :
    ¬ RaceFree (measuring orders t 0 ++ inserting orders u 1) := by
  intro raceFree
  have happens := raceFree 4 11 ⟨t, .read .dirty⟩ ⟨u, .write .dirty⟩ (by decide) rfl rfl
    ⟨rfl, .inr rfl, .inl rfl⟩
  refine not_happensBefore_of_apart ?_ ?_ ?_ ?_ happens
  · simp [inserting, beginWrite, scanning, different]
  · simpa [inserting, beginWrite, scanning, Operation.releases, Operation.acquires,
      Operation.location] using apart
  · simp [beginRead]
  · simp [beginRead]

/-- The first operations of a reader and of a writer and what each of them loads
next, of which one has to see the other: they are `SeqCst`, as in the source. -/
structure Orderings.Sequential (orders : Orderings) : Prop where
  add : orders.add = .seqCst
  load : orders.load = .seqCst
  raise : orders.raise = .seqCst
  scan : orders.scan = .seqCst

/-- What is left to choose then. -/
theorem Orderings.Sequential.suffice_iff (sequential : orders.Sequential) :
    orders.Suffice ↔ orders.lower.releases = true ∧ orders.release.releases = true := by
  constructor
  · intro suffice
    exact ⟨suffice.lower_releases, suffice.release_releases⟩
  · rintro ⟨lower, release⟩
    exact ⟨lower, by rw [sequential.load]; rfl, release, by rw [sequential.scan]; rfl⟩

/-- Whatever the orderings are, for no run to have a race these four are needed. -/
theorem suffice_of_raceFree {kind : Kind} [Nontrivial Thread] {w : Nat} (wide : 0 < w)
    (raceFree : ∀ s, (traced kind orders Thread w).Reachable s → RaceFree s.events) :
    orders.Suffice := by
  obtain ⟨t, u, different⟩ := exists_pair_ne Thread
  have initial : (traced kind orders Thread w).Reachable (.new Thread w) := .initial rfl
  have inserts : (traced kind orders Thread w).Continues (.new Thread w) ⟨_, [], _⟩ :=
    (continues_to_inserted (b := .new Thread w) (t := t) rfl rfl rfl nofun).trans
      (continues_to_measured (t := u) wide rfl rfl rfl rfl)
  have measures : (traced kind orders Thread w).Continues (.new Thread w) ⟨_, [], _⟩ :=
    (continues_to_measured (b := .new Thread w) (t := t) wide rfl rfl rfl rfl).trans
      (continues_to_inserted (t := u) rfl rfl rfl (by simp [State.new]))
  have flag : orders.lower.releases = true ∧ orders.load.acquires = true := by
    by_contra apart
    exact insert_races_len different apart (raceFree _ (inserts.reachable initial))
  have counters : orders.release.releases = true ∧ orders.scan.acquires = true := by
    by_contra apart
    exact len_races_insert different apart (raceFree _ (measures.reachable initial))
  exact ⟨flag.1, flag.2, counters.1, counters.2⟩

/-- Which orderings it takes, for every container kind and any threads, of which
there are two. For no run to have a race the `store` that lowers the flag and the
`fetch_sub` that ends a section must release, and the `load` of the flag and the
`load` in the scan acquire, whatever the others do. With the `SeqCst` operations of
the source that is exactly that the `store` and the `fetch_sub` release. -/
theorem race_free_orderings (kind : Kind) {Thread : Type} [DecidableEq Thread]
    [Nontrivial Thread] {w : Nat} (wide : 0 < w) (orders : Orderings) :
    ((∀ s, (traced kind orders Thread w).Reachable s → RaceFree s.events) → orders.Suffice) ∧
      (orders.Sequential →
        ((∀ s, (traced kind orders Thread w).Reachable s → RaceFree s.events) ↔
          orders.lower.releases = true ∧ orders.release.releases = true)) := by
  refine ⟨suffice_of_raceFree wide, fun sequential => ?_⟩
  rw [← sequential.suffice_iff]
  exact ⟨suffice_of_raceFree wide, fun suffice s reachable =>
    (ordered_of_reachable suffice reachable).raceFree⟩

/-- The `store` that lowers the flag could be `Release`. Were the `fetch_sub` that
ends a section `Relaxed`, there would be a race. -/
theorem relaxed_release_races :
    (∀ s, (traced .vec { Orderings.source with lower := .release } (Fin 2) 64).Reachable s →
      RaceFree s.events) ∧
    ¬ ∀ s, (traced .vec { Orderings.source with release := .relaxed } (Fin 2) 64).Reachable s →
      RaceFree s.events := by
  constructor
  · exact ((race_free_orderings .vec (by decide) _).2 ⟨rfl, rfl, rfl, rfl⟩).mpr ⟨rfl, rfl⟩
  · intro raceFree
    have suffice := (race_free_orderings .vec (by decide) _).1 raceFree
    exact absurd suffice.release_releases nofun

end Results

end DarkStd.Sync
