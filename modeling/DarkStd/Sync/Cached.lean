import Mathlib.Data.Finset.Union
import Mathlib.Data.Fintype.EquivFin
import DarkStd.Semantics.Bisimulation
import DarkStd.Sync.Coherence
import DarkStd.Sync.Quiescence

/-!
# Containers whose readers go through `SLOTS`

`Container` lets a thread remember its counter of the one container there is.
Here any number of containers come and go, and all a thread has is its
`ReaderSlots`: pointers under the ids of containers. `begin_read` starts with
`reader_count_for` on them; the rest of the code is that of `Container`. Seen
through what the search of `all` would find for a container, it does what
`Container` says, and everything that `Container` says can be done.

A thread that has ended is one that takes no more steps.
-/

namespace DarkStd.Sync

open DarkStd.Semantics

/-- Containers that come and go, each with what its readers remember of it. -/
structure Pool (Thread : Type) (w : Nat) where
  created : Nat
  containers : Nat → Option (Kind × State Thread w)

/-- What may happen to containers that come and go. -/
inductive PoolAction (Thread : Type) where
  | create (kind : Kind)
  /-- Drop a container that nobody borrows. -/
  | drop (c : Nat)
  | act (c : Nat) (action : Action Thread)

/-- Fewer than `2 ^ w` containers that have nothing in common. -/
def pool (Thread : Type) [DecidableEq Thread] (w : Nat) :
    System (Pool Thread w) (PoolAction Thread) where
  Initial p := p = ⟨0, fun _ => none⟩
  Step p action next :=
    match action with
    | .create kind => p.created + 1 < 2 ^ w ∧ next =
        ⟨p.created + 1, Function.update p.containers p.created (some (kind, .new Thread w))⟩
    | .drop c => (∃ kind s, p.containers c = some (kind, s) ∧ s.Finished) ∧
        next = { p with containers := Function.update p.containers c none }
    | .act c action => ∃ kind s after, p.containers c = some (kind, s) ∧
        s.step kind action = some after ∧
          next = { p with containers := Function.update p.containers c (some (kind, after)) }

namespace Cached

open Slots (ReaderSlots)

/-- A container with its id and the addresses of the counters in its registry.
`sync` is everything else; nothing is read from its `slots`. -/
structure Entry (Thread Address : Type) (w : Nat) where
  kind : Kind
  id : BitVec w
  addresses : List Address
  sync : Sync.State Thread w

/-- `CONTAINER_ID`, the containers by the order of creation, and the `SLOTS` of
every thread. -/
structure State (Thread Address : Type) (w : Nat) where
  containerId : BitVec w
  created : Nat
  containers : Nat → Option (Entry Thread Address w)
  slots : Thread → ReaderSlots Address w

/-- What may happen to containers and the slots of threads. -/
inductive Action (Thread Address : Type) where
  | create (kind : Kind)
  /-- Drop a container that nobody borrows. -/
  | drop (c : Nat)
  /-- A step in the code of a container, other than the next. -/
  | act (c : Nat) (action : Sync.Action Thread)
  /-- A first reader allocates its counter. -/
  | push (c : Nat) (thread : Thread) (address : Address)

section View

variable {Thread Address : Type} [DecidableEq Address] {w : Nat}

/-- A container with what the threads would find for it in their slots. -/
def Entry.view (entry : Entry Thread Address w) (slots : Thread → ReaderSlots Address w) :
    Sync.State Thread w :=
  { entry.sync with slots := fun t => ((slots t).search entry.id).map entry.addresses.idxOf }

/-- Where `begin_read` goes on with what `reader_count_for` has found. -/
def Entry.slotted (entry : Entry Thread Address w) (call : ReadCall) : Option Address → Pc
  | some ptr => .add call (entry.addresses.idxOf ptr)
  | none => .register call

/-- A container, if it exists, so seen. -/
def State.look (s : State Thread Address w) :
    Option (Entry Thread Address w) → Option (Kind × Sync.State Thread w) :=
  Option.map fun entry => (entry.kind, entry.view s.slots)

/-- All containers, so seen. -/
def State.view (s : State Thread Address w) : Pool Thread w where
  created := s.created
  containers c := s.look (s.containers c)

end View

namespace State

variable {Thread Address : Type} {w : Nat}

/-- Before the first container. -/
def start (Thread Address : Type) (w : Nat) : State Thread Address w where
  containerId := 0
  created := 0
  containers := fun _ => none
  slots := fun _ => .new Address w

/-- The addresses of the counters of a container that exists. -/
def registry (s : State Thread Address w) (c : Nat) : List Address :=
  (s.containers c).elim [] (·.addresses)

/-- The address belongs to a counter that exists. -/
def Allocated (s : State Thread Address w) (address : Address) : Prop :=
  ∃ c < s.created, address ∈ s.registry c

instance [DecidableEq Address] (s : State Thread Address w) (address : Address) :
    Decidable (s.Allocated address) :=
  inferInstanceAs (Decidable (∃ c < s.created, address ∈ s.registry c))

/-- Replace what belongs to a container. -/
def set (s : State Thread Address w) (c : Nat) (entry : Entry Thread Address w) :
    State Thread Address w :=
  { s with containers := Function.update s.containers c (some entry) }

variable [DecidableEq Thread]

/-- Replace the slots of a thread. -/
def setSlots (s : State Thread Address w) (t : Thread) (slots : ReaderSlots Address w) :
    State Thread Address w :=
  { s with slots := Function.update s.slots t slots }

variable [DecidableEq Address]

/-- A step of a container that leaves the slots alone. -/
def follow (s : State Thread Address w) (c : Nat) (entry : Entry Thread Address w)
    (action : Sync.Action Thread) : Option (State Thread Address w) :=
  ((entry.view s.slots).step entry.kind action).map fun next => s.set c { entry with sync := next }

/-- One action. -/
def step (s : State Thread Address w) : Action Thread Address → Option (State Thread Address w)
  | .create kind => some { s with
      containerId := s.containerId + 1
      created := s.created + 1
      containers := Function.update s.containers s.created
        (some ⟨kind, s.containerId, [], .new Thread w⟩) }
  | .drop c =>
      match s.containers c with
      | some _ => some { s with containers := Function.update s.containers c none }
      | none => none
  | .act c action =>
      match s.containers c, action with
      | some entry, .step t =>
          match entry.sync.pc t with
          | .slot call =>
              let (found, slots) := (s.slots t).lookup entry.id
              some ((s.set c { entry with
                sync := entry.sync.goto t (entry.slotted call found) }).setSlots t slots)
          | .push _ => none
          | _ => s.follow c entry (.step t)
      | some entry, action => s.follow c entry action
      | none, _ => none
  | .push c t address =>
      match s.containers c with
      | some entry =>
          match entry.sync.pc t with
          | .push call =>
              if ¬ s.Allocated address then
                some ((s.set c { entry with
                  addresses := entry.addresses ++ [address]
                  sync := { entry.sync with registry := entry.sync.registry ++ [0] }.goto t
                    (.release call entry.sync.registry.length) }).setSlots t
                  ((s.slots t).remember entry.id address))
              else none
          | _ => none
      | none => none

/-- Fewer than `2 ^ w` containers are created, and none is dropped that is in use. -/
def Allowed (s : State Thread Address w) : Action Thread Address → Prop
  | .create _ => s.created + 1 < 2 ^ w
  | .drop c => ∀ entry ∈ s.containers c, entry.sync.Finished
  | .act .. | .push .. => True

instance [Fintype Thread] (s : State Thread Address w) (action : Action Thread Address) :
    Decidable (s.Allowed action) :=
  match action with
  | .create _ => inferInstanceAs (Decidable (_ < _))
  | .drop c => inferInstanceAs (Decidable (∀ entry ∈ s.containers c,
      (∀ t, entry.sync.pc t = .idle) ∧ entry.sync.readGuards = [] ∧ entry.sync.writeGuards = []))
  | .act .. | .push .. => inferInstanceAs (Decidable True)

end State

end Cached

/-- Any number of containers and threads, with their slots. -/
def cached (Thread Address : Type) [DecidableEq Thread] [DecidableEq Address] (w : Nat) :
    System (Cached.State Thread Address w) (Cached.Action Thread Address) :=
  (System.ofFunction (.start Thread Address w) Cached.State.step).restrict Cached.State.Allowed

namespace Slots.ReaderSlots

variable {Address : Type} {w : Nat} {slots : ReaderSlots Address w} {id key : BitVec w}

/-- A lookup changes what is found the next time for no container. -/
theorem search_lookup : (slots.lookup id).2.search key = slots.search key := by
  rw [search, lookup_all, search]

/-- A counter is remembered under an id that was not there, and under no other. -/
theorem search_remember {ptr : Address} (fresh : slots.search id = none) :
    (slots.remember id ptr).search key = if key = id then some ptr else slots.search key := by
  unfold search remember
  rw [List.find?_append]
  split
  case isTrue same =>
    subst same
    have absent : slots.all.find? (fun entry => entry.1 = key) = none :=
      Option.map_eq_none_iff.mp fresh
    simp [absent]
  case isFalse other =>
    have apart : id ≠ key := Ne.symm other
    simp [apart]

end Slots.ReaderSlots

namespace Cached

open Slots (ReaderSlots)

variable {Thread Address : Type} [DecidableEq Thread] [DecidableEq Address] {w : Nat}
variable {s next : State Thread Address w} {entry : Entry Thread Address w} {c : Nat} {t : Thread}

omit [DecidableEq Thread] in
theorem State.view_containers : s.view.containers c =
    (s.containers c).map fun entry => (entry.kind, entry.view s.slots) := rfl

/-- What a thread has in its slots for the containers that exist is what it has
registered there. -/
structure Coherent (s : State Thread Address w) : Prop where
  created_lt : s.created < 2 ^ w
  containerId_eq : s.containerId = BitVec.ofNat w s.created
  live_lt : ∀ c entry, s.containers c = some entry → c < s.created
  id_eq : ∀ c entry, s.containers c = some entry → entry.id = BitVec.ofNat w c
  slots : ∀ t, (s.slots t).Coherent
  known : ∀ t id ptr, (s.slots t).search id = some ptr → ∃ c < s.created, id = BitVec.ofNat w c
  points : ∀ c entry, s.containers c = some entry → ∀ t ptr,
    (s.slots t).search entry.id = some ptr → ptr ∈ entry.addresses
  lengths : ∀ c entry, s.containers c = some entry →
    entry.addresses.length = entry.sync.registry.length
  reached : ∀ c entry, s.containers c = some entry →
    (container entry.kind Thread w).Reachable (entry.view s.slots)

theorem Coherent.start : Coherent (State.start Thread Address w) where
  created_lt := Nat.two_pow_pos w
  containerId_eq := rfl
  live_lt := by simp [State.start]
  id_eq := by simp [State.start]
  slots := fun _ => .new
  known := by simp [State.start, ReaderSlots.new, ReaderSlots.search]
  points := by simp [State.start]
  lengths := by simp [State.start]
  reached := by simp [State.start]

/-- Ids of containers created so far are distinct. -/
theorem Coherent.ofNat_injective (coherent : Coherent s) {d : Nat} (left : c < s.created)
    (right : d < s.created) (same : BitVec.ofNat w c = BitVec.ofNat w d) : c = d := by
  have bound := coherent.created_lt
  have values := congrArg BitVec.toNat same
  rwa [BitVec.toNat_ofNat, BitVec.toNat_ofNat, Nat.mod_eq_of_lt (by omega),
    Nat.mod_eq_of_lt (by omega)] at values

theorem Coherent.id_ne (coherent : Coherent s) {d : Nat} {other : Entry Thread Address w}
    (live : s.containers c = some entry) (also : s.containers d = some other) (apart : d ≠ c) :
    other.id ≠ entry.id := by
  intro same
  rw [coherent.id_eq c entry live, coherent.id_eq d other also] at same
  exact apart (coherent.ofNat_injective (coherent.live_lt d other also)
    (coherent.live_lt c entry live) same)

omit [DecidableEq Thread] in
/-- A container is seen as it was if the same is found for it. -/
theorem Entry.view_congr {slots slots' : Thread → ReaderSlots Address w}
    (same : ∀ u, (slots' u).search entry.id = (slots u).search entry.id) :
    entry.view slots' = entry.view slots := by
  simp only [Entry.view, same]

/-- What a step does to one container, with the slots of the threads: what is
found for the others stays. -/
structure Changes (s next : State Thread Address w) (c : Nat)
    (entry after : Entry Thread Address w) : Prop where
  live : s.containers c = some entry
  containers : next.containers = Function.update s.containers c (some after)
  containerId : next.containerId = s.containerId
  created : next.created = s.created
  kind : after.kind = entry.kind
  id : after.id = entry.id
  slots : ∀ u, (next.slots u).Coherent
  found : ∀ u key, key ≠ entry.id → (next.slots u).search key = (s.slots u).search key
  points : ∀ u ptr, (next.slots u).search entry.id = some ptr → ptr ∈ after.addresses
  lengths : after.addresses.length = after.sync.registry.length

section Changes

variable {after : Entry Thread Address w}

/-- Only the one container is seen to change. -/
theorem Changes.view_eq (coherent : Coherent s) (changes : Changes s next c entry after) :
    next.view = { s.view with
      containers := Function.update s.view.containers c
        (some (entry.kind, after.view next.slots)) } := by
  have containers : next.view.containers =
      Function.update s.view.containers c (some (entry.kind, after.view next.slots)) := by
    funext d
    rw [State.view_containers, changes.containers, Function.update_apply, Function.update_apply]
    split
    case isTrue => rw [Option.map_some, changes.kind]
    case isFalse apart =>
      rw [State.view_containers]
      cases also : s.containers d with
      | none => rfl
      | some other =>
          have same : other.view next.slots = other.view s.slots := Entry.view_congr fun u =>
            changes.found u other.id (coherent.id_ne changes.live also apart)
          simp only [Option.map_some, same]
  exact congrArg₂ Pool.mk changes.created containers

theorem Changes.coherent (coherent : Coherent s) (changes : Changes s next c entry after)
    {action : Sync.Action Thread}
    (stepped : (entry.view s.slots).step entry.kind action = some (after.view next.slots)) :
    Coherent next := by
  have lt := coherent.live_lt c entry changes.live
  have cases_of {d : Nat} {other : Entry Thread Address w} (also : next.containers d = some other) :
      (d = c ∧ other = after) ∨ (d ≠ c ∧ s.containers d = some other) := by
    rw [changes.containers, Function.update_apply] at also
    split at also
    case isTrue same => exact .inl ⟨same, (Option.some.inj also).symm⟩
    case isFalse apart => exact .inr ⟨apart, also⟩
  have found_other {d : Nat} {other : Entry Thread Address w} (apart : d ≠ c)
      (also : s.containers d = some other) (u : Thread) :
      (next.slots u).search other.id = (s.slots u).search other.id :=
    changes.found u other.id (coherent.id_ne changes.live also apart)
  constructor
  · exact changes.created ▸ coherent.created_lt
  · rw [changes.containerId, changes.created]
    exact coherent.containerId_eq
  · intro d other also
    rw [changes.created]
    rcases cases_of also with ⟨rfl, -⟩ | ⟨-, also⟩
    · exact lt
    · exact coherent.live_lt d other also
  · intro d other also
    rcases cases_of also with ⟨rfl, rfl⟩ | ⟨-, also⟩
    · rw [changes.id]
      exact coherent.id_eq d entry changes.live
    · exact coherent.id_eq d other also
  · exact changes.slots
  · intro u key ptr hit
    rw [changes.created]
    by_cases same : key = entry.id
    · exact ⟨c, lt, same.trans (coherent.id_eq c entry changes.live)⟩
    · exact coherent.known u key ptr (changes.found u key same ▸ hit)
  · intro d other also u ptr hit
    rcases cases_of also with ⟨rfl, rfl⟩ | ⟨apart, also⟩
    · exact changes.points u ptr (changes.id ▸ hit)
    · exact coherent.points d other also u ptr (found_other apart also u ▸ hit)
  · intro d other also
    rcases cases_of also with ⟨rfl, rfl⟩ | ⟨-, also⟩
    · exact changes.lengths
    · exact coherent.lengths d other also
  · intro d other also
    rcases cases_of also with ⟨rfl, rfl⟩ | ⟨apart, also⟩
    · rw [changes.kind]
      exact (coherent.reached d entry changes.live).step stepped
    · rw [Entry.view_congr (found_other apart also)]
      exact coherent.reached d other also

end Changes

section Steps

variable {call : ReadCall}

/-- `reader_count_for` finds what `Container` remembers. -/
theorem slot_changes (coherent : Coherent s) (live : s.containers c = some entry)
    (here : entry.sync.pc t = .slot call) {after : Entry Thread Address w}
    (goes : after = { entry with
      sync := entry.sync.goto t (entry.slotted call ((s.slots t).lookup entry.id).1) })
    (goes' : next = (s.set c after).setSlots t ((s.slots t).lookup entry.id).2) :
    Changes s next c entry after ∧
      (entry.view s.slots).step entry.kind (.step t) = some (after.view next.slots) := by
  subst goes goes'
  have found (u : Thread) (key : BitVec w) :
      (Function.update s.slots t ((s.slots t).lookup entry.id).2 u).search key =
        (s.slots u).search key := by
    rw [Function.update_apply]
    split
    case isTrue same => rw [same, ReaderSlots.search_lookup]
    case isFalse => rfl
  refine ⟨⟨live, rfl, rfl, rfl, rfl, rfl, fun u => ?_, fun u key _ => found u key,
    fun u ptr hit => coherent.points c entry live u ptr (found u entry.id ▸ hit),
    coherent.lengths c entry live⟩, ?_⟩
  · simp only [State.setSlots, Function.update_apply]
    split
    · exact (coherent.slots t).lookup
    · exact coherent.slots u
  · have slots : (entry.view s.slots).slots t =
        ((s.slots t).lookup entry.id).1.map entry.addresses.idxOf := by
      rw [(coherent.slots t).lookup_fst]
      rfl
    have seen (pc : Pc) :
        ({ entry with sync := entry.sync.goto t pc } : Entry Thread Address w).view
          (Function.update s.slots t ((s.slots t).lookup entry.id).2) =
            (entry.view s.slots).goto t pc := by
      let moved : Entry Thread Address w := { entry with sync := entry.sync.goto t pc }
      have kept : moved.view (Function.update s.slots t ((s.slots t).lookup entry.id).2) =
          moved.view s.slots := Entry.view_congr fun u => found u entry.id
      exact kept
    have at_ : (entry.view s.slots).pc t = .slot call := here
    refine Eq.trans ?_ (congrArg some (seen _).symm)
    change (entry.view s.slots).advance t = _
    cases hit : ((s.slots t).lookup entry.id).1 with
    | some ptr => simp only [Sync.State.advance, at_, slots, hit, Option.map_some, Entry.slotted]
    | none => simp only [Sync.State.advance, at_, slots, hit, Option.map_none, Entry.slotted]

/-- A first reader finds at its position what it has just pushed. -/
theorem push_changes (coherent : Coherent s) (live : s.containers c = some entry)
    (here : entry.sync.pc t = .push call) {address : Address} (fresh : ¬ s.Allocated address)
    {after : Entry Thread Address w}
    (goes : after = { entry with
      addresses := entry.addresses ++ [address]
      sync := { entry.sync with registry := entry.sync.registry ++ [0] }.goto t
        (.release call entry.sync.registry.length) })
    (goes' : next = (s.set c after).setSlots t ((s.slots t).remember entry.id address)) :
    Changes s next c entry after ∧
      (entry.view s.slots).step entry.kind (.step t) = some (after.view next.slots) := by
  subst goes goes'
  have unregistered : (s.slots t).search entry.id = none := by
    have sound := Sync.State.sound_of_reachable (coherent.reached c entry live)
    have missing : (entry.view s.slots).slots t = none :=
      sound.registered.unregistered_slot t (by
        change (entry.sync.pc t).unregistered = true
        rw [here]
        rfl)
    exact Option.map_eq_none_iff.mp missing
  have new : address ∉ entry.addresses := by
    intro member
    refine fresh ⟨c, coherent.live_lt c entry live, ?_⟩
    rw [State.registry, live]
    exact member
  have found (u : Thread) (key : BitVec w) :
      (Function.update s.slots t ((s.slots t).remember entry.id address) u).search key =
        if u = t ∧ key = entry.id then some address else (s.slots u).search key := by
    rw [Function.update_apply]
    by_cases same : u = t
    · rw [if_pos same, ReaderSlots.search_remember unregistered, same]
      simp
    · rw [if_neg same, if_neg (same ·.1)]
  refine ⟨⟨live, rfl, rfl, rfl, rfl, rfl, fun u => ?_, fun u key other => ?_,
    fun u ptr hit => ?_, ?_⟩, ?_⟩
  · simp only [State.setSlots, Function.update_apply]
    split
    · refine (coherent.slots t).remember fun ptr member => ?_
      cases unregistered.symm.trans ((coherent.slots t).search_eq_some.mpr member)
    · exact coherent.slots u
  · exact (found u key).trans (if_neg (other ·.2))
  · rw [List.mem_append, List.mem_singleton]
    have hit : _ = some ptr := (found u entry.id).symm.trans hit
    split at hit
    · exact .inr (Option.some.inj hit).symm
    · exact .inl (coherent.points c entry live u ptr hit)
  · simp [coherent.lengths c entry live]
  · have slots : (fun u => ((Function.update s.slots t ((s.slots t).remember entry.id address)
        u).search entry.id).map (entry.addresses ++ [address]).idxOf) =
          Function.update (entry.view s.slots).slots t (some entry.sync.registry.length) := by
      funext u
      rw [found, Function.update_apply]
      by_cases same : u = t
      · rw [if_pos same, if_pos ⟨same, rfl⟩, Option.map_some, List.idxOf_append_of_notMem new,
          List.idxOf_cons_self, ← coherent.lengths c entry live]
        rfl
      · rw [if_neg same, if_neg (same ·.1)]
        unfold Entry.view
        refine Option.map_congr fun ptr hit => ?_
        exact List.idxOf_append_of_mem (coherent.points c entry live u ptr hit)
    have at_ : (entry.view s.slots).pc t = .push call := here
    change (entry.view s.slots).advance t = _
    simp only [Sync.State.advance, at_]
    exact congrArg some (congrArg (fun slots => ({ entry.sync with
      registry := entry.sync.registry ++ [0], slots := slots } : Sync.State Thread w).goto t
        (.release call entry.sync.registry.length)) slots.symm)

/-- The other steps do not look at the slots. -/
theorem follow_changes (coherent : Coherent s) (live : s.containers c = some entry)
    {action : Sync.Action Thread} {moved : Sync.State Thread w}
    (stepped : (entry.view s.slots).step entry.kind action = some moved)
    (quiet : ∀ t call, action = .step t → entry.sync.pc t ≠ .push call)
    {after : Entry Thread Address w} (goes : after = { entry with sync := moved })
    (goes' : next = s.set c after) :
    Changes s next c entry after ∧
      (entry.view s.slots).step entry.kind action = some (after.view next.slots) := by
  subst goes goes'
  obtain ⟨slots, length⟩ : moved.slots = (entry.view s.slots).slots ∧
      moved.registry.length = (entry.view s.slots).registry.length := by
    rcases (Sync.State.moves_of_step stepped).slots_eq with same | ⟨t, call, acts, here, -⟩
    · exact same
    · exact absurd here (quiet t call acts)
  refine ⟨⟨live, rfl, rfl, rfl, rfl, rfl, coherent.slots, fun _ _ _ => rfl,
    coherent.points c entry live, (coherent.lengths c entry live).trans length.symm⟩, ?_⟩
  have seen : ({ entry with sync := moved } : Entry Thread Address w).view s.slots = moved := by
    change ({ moved with slots := (entry.view s.slots).slots } : Sync.State Thread w) = moved
    rw [← slots]
  exact stepped.trans (congrArg some seen.symm)

/-- Every step in the code of a container is one that `Container` has. -/
theorem changes_of_act (coherent : Coherent s) {action : Sync.Action Thread}
    (stepped : s.step (.act c action) = some next) :
    ∃ entry after, Changes s next c entry after ∧
      (entry.view s.slots).step entry.kind action = some (after.view next.slots) := by
  have follows {entry : Entry Thread Address w} {action : Sync.Action Thread}
      (live : s.containers c = some entry) (stepped : s.follow c entry action = some next)
      (quiet : ∀ t call, action = .step t → entry.sync.pc t ≠ .push call) :
      ∃ entry after, Changes s next c entry after ∧
        (entry.view s.slots).step entry.kind action = some (after.view next.slots) := by
    obtain ⟨moved, below, rfl⟩ := Option.map_eq_some_iff.mp stepped
    exact ⟨entry, _, follow_changes coherent live below quiet rfl rfl⟩
  simp only [State.step] at stepped
  split at stepped
  case h_1 entry t live =>
    split at stepped
    case h_1 call here =>
      obtain rfl := Option.some.inj stepped
      exact ⟨entry, _, slot_changes coherent live here rfl rfl⟩
    case h_2 => cases stepped
    case h_3 noSlot noPush =>
      refine follows live stepped fun u call acts => ?_
      obtain rfl := Sync.Action.step.inj acts
      exact noPush call
  case h_2 entry live other =>
    exact follows live stepped fun u call acts => absurd acts (other u)
  case h_3 => cases stepped

theorem changes_of_push (coherent : Coherent s) {address : Address}
    (stepped : s.step (.push c t address) = some next) :
    ∃ entry after, Changes s next c entry after ∧
      (entry.view s.slots).step entry.kind (.step t) = some (after.view next.slots) := by
  simp only [State.step] at stepped
  split at stepped
  case h_1 entry live =>
    split at stepped
    case h_1 call here =>
      obtain ⟨fresh, moved⟩ := Option.ite_none_right_eq_some.mp stepped
      obtain rfl := Option.some.inj moved
      exact ⟨entry, _, push_changes coherent live here fresh rfl rfl⟩
    case h_2 => cases stepped
  case h_2 => cases stepped

omit [DecidableEq Thread] in
/-- There is always an address for another counter. -/
theorem exists_unallocated [Infinite Address] (s : State Thread Address w) :
    ∃ address, ¬ s.Allocated address := by
  obtain ⟨address, absent⟩ := Infinite.exists_notMem_finset
    ((Finset.range s.created).biUnion fun c => (s.registry c).toFinset)
  refine ⟨address, fun ⟨c, created, member⟩ => absent ?_⟩
  rw [Finset.mem_biUnion]
  exact ⟨c, Finset.mem_range.mpr created, List.mem_toFinset.mpr member⟩

/-- What `Container` can do can be done. -/
theorem exists_changes [Infinite Address] (coherent : Coherent s)
    (live : s.containers c = some entry) {action : Sync.Action Thread} {moved : Sync.State Thread w}
    (stepped : (entry.view s.slots).step entry.kind action = some moved) :
    ∃ taken next after, s.step taken = some next ∧ Changes s next c entry after ∧
      (taken = .act c action ∨ ∃ t address, taken = .push c t address ∧ action = .step t) ∧
        after.view next.slots = moved := by
  have follows (same : s.step (.act c action) = s.follow c entry action)
      (quiet : ∀ t call, action = .step t → entry.sync.pc t ≠ .push call) :
      ∃ taken next after, s.step taken = some next ∧ Changes s next c entry after ∧
        (taken = .act c action ∨ ∃ t address, taken = .push c t address ∧ action = .step t) ∧
          after.view next.slots = moved := by
    obtain ⟨changes, seen⟩ := follow_changes coherent live stepped quiet rfl rfl
    refine ⟨.act c action, _, _, ?_, changes, .inl rfl, Option.some.inj (seen.symm.trans stepped)⟩
    rw [same, State.follow, stepped, Option.map_some]
  cases action with
  | step t =>
      cases here : entry.sync.pc t with
      | slot call =>
          obtain ⟨changes, seen⟩ := slot_changes coherent live here rfl rfl
          exact ⟨.act c (.step t), _, _, by simp only [State.step, live, here], changes, .inl rfl,
            Option.some.inj (seen.symm.trans stepped)⟩
      | push call =>
          obtain ⟨address, fresh⟩ := exists_unallocated s
          obtain ⟨changes, seen⟩ := push_changes coherent live here fresh rfl rfl
          exact ⟨.push c t address, _, _, by simp only [State.step, live, here, if_pos fresh],
            changes, .inr ⟨t, address, rfl, rfl⟩, Option.some.inj (seen.symm.trans stepped)⟩
      | _ =>
          refine follows (by simp only [State.step, live, here]) fun u call acts => ?_
          obtain rfl := Sync.Action.step.inj acts
          simp [here]
  | _ => exact follows (by simp only [State.step, live]) fun u call acts => nomatch acts

end Steps

/-- What an action is to the containers. -/
def Action.onPool : Action Thread Address → PoolAction Thread
  | .create kind => .create kind
  | .drop c => .drop c
  | .act c action => .act c action
  | .push c t _ => .act c (.step t)

/-- Nobody knows the id of a container that is yet to be created. -/
theorem Coherent.search_next (coherent : Coherent s) (few : s.created + 1 < 2 ^ w) (u : Thread) :
    (s.slots u).search s.containerId = none := by
  refine Option.eq_none_iff_forall_ne_some.mpr fun ptr hit => ?_
  obtain ⟨c, old, same⟩ := coherent.known u s.containerId ptr hit
  rw [coherent.containerId_eq] at same
  have values := congrArg BitVec.toNat same
  rw [BitVec.toNat_ofNat, BitVec.toNat_ofNat, Nat.mod_eq_of_lt (by omega),
    Nat.mod_eq_of_lt (by omega)] at values
  omega

theorem create_steps (coherent : Coherent s) {kind : Kind} (few : s.created + 1 < 2 ^ w)
    (stepped : s.step (.create kind) = some next) :
    Coherent next ∧ (pool Thread w).Step s.view (.create kind) next.view := by
  obtain rfl := Option.some.inj stepped
  have unknown := coherent.search_next few
  have seen : (⟨kind, s.containerId, [], .new Thread w⟩ : Entry Thread Address w).view s.slots =
      .new Thread w := by
    simp only [Entry.view, unknown, Option.map_none]
    rfl
  have cases_of {d : Nat} {other : Entry Thread Address w}
      (also : Function.update s.containers s.created
        (some ⟨kind, s.containerId, [], .new Thread w⟩) d = some other) :
      (d = s.created ∧ other = ⟨kind, s.containerId, [], .new Thread w⟩) ∨
        s.containers d = some other := by
    rw [Function.update_apply] at also
    split at also
    case isTrue same => exact .inl ⟨same, (Option.some.inj also).symm⟩
    case isFalse => exact .inr also
  refine ⟨⟨few, ?_, fun d other also => ?_, fun d other also => ?_, coherent.slots,
    fun u id ptr hit => ?_, fun d other also u ptr hit => ?_, fun d other also => ?_,
    fun d other also => ?_⟩, few, ?_⟩
  · simp [coherent.containerId_eq, BitVec.ofNat_add]
  · rcases cases_of also with ⟨rfl, -⟩ | also
    · exact Nat.lt_succ_self _
    · exact Nat.lt_succ_of_lt (coherent.live_lt d other also)
  · rcases cases_of also with ⟨rfl, rfl⟩ | also
    · exact coherent.containerId_eq
    · exact coherent.id_eq d other also
  · obtain ⟨c, old, same⟩ := coherent.known u id ptr hit
    exact ⟨c, Nat.lt_succ_of_lt old, same⟩
  · rcases cases_of also with ⟨rfl, rfl⟩ | also
    · cases (unknown u).symm.trans hit
    · exact coherent.points d other also u ptr hit
  · rcases cases_of also with ⟨rfl, rfl⟩ | also
    · rfl
    · exact coherent.lengths d other also
  · rcases cases_of also with ⟨rfl, rfl⟩ | also
    · rw [seen]
      exact .initial rfl
    · exact coherent.reached d other also
  · refine congrArg (Pool.mk (s.created + 1)) ((Function.comp_update s.look ..).trans ?_)
    rw [State.look, Option.map_some, seen]
    rfl

theorem drop_steps (coherent : Coherent s) (live : s.containers c = some entry)
    (unused : entry.sync.Finished) (stepped : s.step (.drop c) = some next) :
    Coherent next ∧ (pool Thread w).Step s.view (.drop c) next.view := by
  simp only [State.step, live] at stepped
  obtain rfl := Option.some.inj stepped
  have kept {d : Nat} {other : Entry Thread Address w}
      (also : Function.update s.containers c none d = some other) :
      s.containers d = some other := by
    rw [Function.update_apply] at also
    split at also
    · cases also
    · exact also
  refine ⟨⟨coherent.created_lt, coherent.containerId_eq,
    fun d other also => coherent.live_lt d other (kept also),
    fun d other also => coherent.id_eq d other (kept also), coherent.slots, coherent.known,
    fun d other also => coherent.points d other (kept also),
    fun d other also => coherent.lengths d other (kept also),
    fun d other also => coherent.reached d other (kept also)⟩,
    ⟨entry.kind, entry.view s.slots, ?_, unused⟩, ?_⟩
  · rw [State.view_containers, live, Option.map_some]
  · exact congrArg (Pool.mk s.created) (Function.comp_update s.look ..)

theorem changes_steps (coherent : Coherent s) {after : Entry Thread Address w}
    (changes : Changes s next c entry after) {action : Sync.Action Thread}
    (stepped : (entry.view s.slots).step entry.kind action = some (after.view next.slots)) :
    Coherent next ∧ (pool Thread w).Step s.view (.act c action) next.view := by
  refine ⟨changes.coherent coherent stepped, entry.kind, entry.view s.slots, after.view next.slots,
    ?_, stepped, changes.view_eq coherent⟩
  rw [State.view_containers, changes.live, Option.map_some]

/-- Containers whose readers go through `SLOTS` are containers that have nothing
in common. -/
theorem bisimulates [Infinite Address] :
    (cached Thread Address w).Bisimulates (pool Thread w) Coherent State.view Action.onPool where
  initial := by
    rintro _ rfl
    exact ⟨.start, rfl⟩
  forward := by
    rintro s action next coherent ⟨allowed, stepped⟩
    cases action with
    | create kind => exact create_steps coherent allowed stepped
    | drop c =>
        cases live : s.containers c with
        | none =>
            change s.step (.drop c) = some next at stepped
            simp only [State.step, live] at stepped
            cases stepped
        | some entry => exact drop_steps coherent live (allowed entry live) stepped
    | act c action =>
        obtain ⟨entry, after, changes, below⟩ := changes_of_act coherent stepped
        exact changes_steps coherent changes below
    | push c t address =>
        obtain ⟨entry, after, changes, below⟩ := changes_of_push coherent stepped
        exact changes_steps coherent changes below
  backward := by
    rintro s action viewed coherent above
    cases action with
    | create kind =>
        obtain ⟨few, rfl⟩ := above
        have stepped : s.step (.create kind) = some _ := rfl
        obtain ⟨-, -, seen⟩ := create_steps coherent few stepped
        exact ⟨.create kind, _, ⟨few, stepped⟩, rfl, seen⟩
    | drop c =>
        obtain ⟨⟨kind, below, also, unused⟩, rfl⟩ := above
        obtain ⟨entry, live, same⟩ := Option.map_eq_some_iff.mp also
        obtain ⟨rfl, rfl⟩ := Prod.mk.inj same
        have stepped : s.step (.drop c) =
            some { s with containers := Function.update s.containers c none } := by
          simp only [State.step, live]
        obtain ⟨-, -, seen⟩ := drop_steps coherent live unused stepped
        refine ⟨.drop c, _, ⟨fun other also => ?_, stepped⟩, rfl, seen⟩
        obtain rfl := Option.some.inj (live.symm.trans also)
        exact unused
    | act c action =>
        obtain ⟨kind, below, moved, also, stepped, rfl⟩ := above
        obtain ⟨entry, live, same⟩ := Option.map_eq_some_iff.mp also
        obtain ⟨rfl, rfl⟩ := Prod.mk.inj same
        obtain ⟨taken, next, after, step, changes, which, rfl⟩ :=
          exists_changes coherent live stepped
        have seen := changes.view_eq coherent
        rcases which with rfl | ⟨t, address, rfl, rfl⟩
        · exact ⟨.act c action, next, ⟨trivial, step⟩, rfl, seen⟩
        · exact ⟨.push c t address, next, ⟨trivial, step⟩, rfl, seen⟩

end Cached

section Results

variable {Thread Address : Type} [DecidableEq Thread] [DecidableEq Address] {w : Nat}

/-- For any threads and any containers that are created, used and dropped, fewer
than `2 ^ w` in all: with the pointers of `SLOTS`, which outlive the containers
they were made for, the containers do exactly what they do if every reader
remembers its counter of each container by itself. -/
theorem reader_slots_bisimulate [Infinite Address] {s : Cached.State Thread Address w}
    (reachable : (cached Thread Address w).Reachable s) :
    (pool Thread w).Reachable s.view ∧
    (∀ actions last, (cached Thread Address w).Steps s actions last →
      (pool Thread w).Steps s.view (actions.map Cached.Action.onPool) last.view) ∧
    ∀ actions viewed, (pool Thread w).Steps s.view actions viewed →
      ∃ taken last, (cached Thread Address w).Steps s taken last ∧
        taken.map Cached.Action.onPool = actions ∧ last.view = viewed := by
  obtain ⟨coherent, above⟩ := Cached.bisimulates.reachable reachable
  refine ⟨above, fun actions last steps => (Cached.bisimulates.steps coherent steps).2,
    fun actions viewed steps => ?_⟩
  obtain ⟨taken, last, below, same, -, seen⟩ := Cached.bisimulates.exists_steps coherent rfl steps
  exact ⟨taken, last, below, same, seen⟩

/-- So with the pointers of `SLOTS` as well, readers and writers of each container
exclude each other, and the counter that the slots of a thread lead to is the
number of sections it has open there. -/
theorem cached_sections_exclude [Infinite Address] {s : Cached.State Thread Address w}
    (reachable : (cached Thread Address w).Reachable s) {c : Nat}
    {entry : Cached.Entry Thread Address w} (live : s.containers c = some entry) :
    (∀ t u, entry.sync.HoldsWriteLock t → entry.sync.HoldsWriteLock u → t = u) ∧
    (∀ t, entry.sync.InWriteSection t → ¬ entry.sync.ReadSectionOpen) ∧
    ∀ t ptr, (s.slots t).search entry.id = some ptr →
      ∃ counter, entry.sync.registry[entry.addresses.idxOf ptr]? = some counter ∧
        counter.toNat = entry.sync.sections t (entry.addresses.idxOf ptr) := by
  obtain ⟨coherent, -⟩ := Cached.bisimulates.reachable reachable
  have sound := State.sound_of_reachable (coherent.reached c entry live)
  refine ⟨fun t u left right => sound.locked.holder_unique left right,
    fun t inside => sound.drained.closed inside, fun t ptr hit => ?_⟩
  have slot : (entry.view s.slots).slots t = some (entry.addresses.idxOf ptr) :=
    congrArg (Option.map entry.addresses.idxOf) hit
  exact sound.accounted.toNat_counter slot

end Results

/-- A second read goes through the cache. -/
theorem second_read_bisimulates :
    ∃ s : Cached.State (Fin 2) Nat 64,
      (s.containers 0).map (·.sync.pc 0) = some (.add ⟨1, .len⟩ 0) ∧
        (pool (Fin 2) 64).Reachable s.view := by
  obtain ⟨s, reachable, met⟩ := System.exists_reachable_of_execute_guarded
    (fun s : Cached.State (Fin 2) Nat 64 =>
      decide ((s.containers 0).map (·.sync.pc 0) = some (.add ⟨1, .len⟩ 0)))
    (show (System.execute (System.guarded Cached.State.step Cached.State.Allowed)
      (.start (Fin 2) Nat 64)
      [.create .vec, .create .hashMap, .act 0 (.read 0 .len), .act 0 (.step 0), .act 0 (.step 0),
        .push 0 0 5, .act 0 (.step 0), .act 0 (.step 0), .act 0 (.step 0),
        .act 0 (.leaveRead 0 none), .act 0 (.read 0 .len), .act 0 (.step 0)]).any _ = true by
          decide +kernel)
  exact ⟨s, of_decide_eq_true met, (reader_slots_bisimulate reachable).1⟩

/-- A `get` through a counter that was allocated at the address of one that is gone. -/
theorem reused_address_excludes :
    ∃ (s : Cached.State (Fin 2) Nat 64) (entry : Cached.Entry (Fin 2) Nat 64),
      s.containers 1 = some entry ∧ (s.slots 0).all = [(0, 5), (1, 5)] ∧
        ∀ t, entry.sync.InWriteSection t → ¬ entry.sync.ReadSectionOpen := by
  obtain ⟨s, reachable, met⟩ := System.exists_reachable_of_execute_guarded
    (fun s : Cached.State (Fin 2) Nat 64 =>
      decide ((s.containers 1).isSome ∧ (s.slots 0).all = [(0, 5), (1, 5)]))
    (show (System.execute (System.guarded Cached.State.step Cached.State.Allowed)
      (.start (Fin 2) Nat 64)
      [.create .vec, .create .vec, .act 0 (.read 0 .len), .act 0 (.step 0), .act 0 (.step 0),
        .push 0 0 5, .act 0 (.step 0), .act 0 (.step 0), .act 0 (.step 0),
        .act 0 (.leaveRead 0 none), .drop 0, .act 1 (.read 0 .get), .act 1 (.step 0),
        .act 1 (.step 0), .push 1 0 5, .act 1 (.step 0)]).any _ = true by decide +kernel)
  obtain ⟨live, slots⟩ := of_decide_eq_true met
  obtain ⟨entry, live⟩ := Option.isSome_iff_exists.mp live
  exact ⟨s, entry, live, slots, (cached_sections_exclude reachable live).2.1⟩

end DarkStd.Sync
