import DarkStd.Sync.Slots

/-!
# The three structures of the reader slots agree

The ids of the containers created so far are distinct as long as the counter
has not wrapped, so an entry of `all` names one container for good. What ties
the caches to the registries is `Owns`: the counter a thread has registered for
a container. A thread's `all` is what it owns, a registry is what is owned of
its container, and `last` is an entry of `all`.
-/

namespace DarkStd.Sync.Slots

open DarkStd.Semantics

namespace ReaderSlots

variable {Address : Type} {w : Nat}

/-- The keys of `all` are distinct, and `last` is null or one of its entries. -/
structure Coherent (slots : ReaderSlots Address w) : Prop where
  keys_nodup : (slots.all.map (·.1)).Nodup
  last_mem : ∀ id ptr, slots.last = (id, some ptr) → (id, ptr) ∈ slots.all

variable {slots : ReaderSlots Address w} {id : BitVec w} {ptr : Address}

/-- The initial slots know nothing. -/
theorem Coherent.new : (ReaderSlots.new Address w).Coherent where
  keys_nodup := List.nodup_nil
  last_mem := by simp [ReaderSlots.new]

/-- The search finds the entry with the key, of which there is at most one. -/
theorem Coherent.search_eq_some (coherent : slots.Coherent) :
    slots.search id = some ptr ↔ (id, ptr) ∈ slots.all := by
  obtain ⟨last, all⟩ := slots
  have distinct : (all.map (·.1)).Nodup := coherent.keys_nodup
  change (all.find? fun entry => entry.1 = id).map (·.2) = some ptr ↔ (id, ptr) ∈ all
  clear coherent
  induction all with
  | nil => simp
  | cons entry all inductionHypothesis =>
      rw [List.map_cons, List.nodup_cons] at distinct
      rw [List.find?_cons, List.mem_cons]
      by_cases same : entry.1 = id
      · have absent : (id, ptr) ∉ all := fun member =>
          distinct.1 (same ▸ List.mem_map_of_mem member)
        simp [same, absent, Prod.ext_iff, eq_comm]
      · simp only [same, decide_false, inductionHypothesis distinct.2]
        have other : (id, ptr) ≠ entry := fun equal => same (equal ▸ rfl)
        simp [other]

/-- The fast path returns what the search returns. -/
theorem Coherent.lookup_fst (coherent : slots.Coherent) :
    (slots.lookup id).1 = slots.search id := by
  unfold lookup
  split
  case isTrue hit =>
    obtain ⟨ptr, cached⟩ := Option.isSome_iff_exists.mp hit.2
    have member := coherent.last_mem id ptr (Prod.ext hit.1 cached)
    rw [cached, coherent.search_eq_some.mpr member]
  case isFalse => split <;> simp_all

/-- A lookup changes no entry. -/
@[simp] theorem lookup_all : (slots.lookup id).2.all = slots.all := by
  unfold lookup
  split
  · rfl
  · split <;> rfl

/-- A lookup caches only what the search has found. -/
theorem Coherent.lookup (coherent : slots.Coherent) : (slots.lookup id).2.Coherent := by
  refine ⟨by simpa using coherent.keys_nodup, fun key ptr last => ?_⟩
  rw [lookup_all]
  unfold ReaderSlots.lookup at last
  split at last
  · exact coherent.last_mem key ptr last
  · split at last
    · rename_i found
      obtain ⟨rfl, rfl⟩ : id = key ∧ _ := by simpa using last
      exact coherent.search_eq_some.mp found
    · exact coherent.last_mem key ptr last

/-- A new key may be remembered. -/
theorem Coherent.remember (coherent : slots.Coherent) (fresh : ∀ ptr, (id, ptr) ∉ slots.all) :
    (slots.remember id ptr).Coherent where
  keys_nodup := by
    have distinct := coherent.keys_nodup
    simp only [ReaderSlots.remember, List.map_append, List.map_cons, List.map_nil]
    refine List.nodup_append.mpr ⟨distinct, List.nodup_singleton _, ?_⟩
    intro key member other single same
    obtain ⟨entry, listed, rfl⟩ := List.mem_map.mp member
    rw [List.mem_singleton] at single
    exact fresh entry.2 (by rwa [← single, ← same])
  last_mem := by
    intro key other last
    obtain ⟨rfl, rfl⟩ : id = key ∧ ptr = other := by simpa [ReaderSlots.remember] using last
    simp [ReaderSlots.remember]

end ReaderSlots

/-- The container a thread calls `reader_count_for` for. -/
@[grind] def Pc.container {Address : Type} : Pc Address → Option Nat
  | .idle => none
  | .lookup c | .register c | .push c | .release c _ | .done c _ => some c

namespace State

variable {Thread Address : Type} {w : Nat}

section Fields

variable (s : State Thread Address w) (t u : Thread) (c d : Nat) (pc : Pc Address) (ptr : Address)
variable (shared : Shared Thread Address w) (slots : ReaderSlots Address w)

@[simp, grind =] theorem set_containers_apply :
    (s.set c shared).containers d = if d = c then some shared else s.containers d :=
  Function.update_apply ..
@[simp, grind =] theorem set_pc_apply : (s.set c shared).pc u = s.pc u := rfl
@[simp, grind =] theorem set_slots_apply : (s.set c shared).slots u = s.slots u := rfl
@[simp, grind =] theorem set_ended_apply : (s.set c shared).ended u = s.ended u := rfl
@[simp, grind =] theorem set_returned : (s.set c shared).returned = s.returned := rfl
@[simp, grind =] theorem set_created : (s.set c shared).created = s.created := rfl
@[simp, grind =] theorem set_containerId : (s.set c shared).containerId = s.containerId := rfl

@[simp, grind =] theorem fresh_pc_apply : s.fresh.pc u = s.pc u := rfl
@[simp, grind =] theorem fresh_containers_apply : s.fresh.containers d =
    if d = s.created then some ⟨s.containerId, [], none, []⟩ else s.containers d :=
  Function.update_apply ..
@[simp, grind =] theorem fresh_slots_apply : s.fresh.slots u = s.slots u := rfl
@[simp, grind =] theorem fresh_ended_apply : s.fresh.ended u = s.ended u := rfl
@[simp, grind =] theorem fresh_returned : s.fresh.returned = s.returned := rfl
@[simp, grind =] theorem fresh_created : s.fresh.created = s.created + 1 := rfl
@[simp, grind =] theorem fresh_containerId : s.fresh.containerId = s.containerId + 1 := rfl

variable [DecidableEq Thread]

@[simp, grind =] theorem goto_pc_apply :
    (s.goto t pc).pc u = if u = t then pc else s.pc u := Function.update_apply ..
@[simp, grind =] theorem goto_containers_apply : (s.goto t pc).containers d = s.containers d := rfl
@[simp, grind =] theorem goto_slots_apply : (s.goto t pc).slots u = s.slots u := rfl
@[simp, grind =] theorem goto_ended_apply : (s.goto t pc).ended u = s.ended u := rfl
@[simp, grind =] theorem goto_returned : (s.goto t pc).returned = s.returned := rfl
@[simp, grind =] theorem goto_created : (s.goto t pc).created = s.created := rfl
@[simp, grind =] theorem goto_containerId : (s.goto t pc).containerId = s.containerId := rfl

@[simp, grind =] theorem setSlots_slots_apply :
    (s.setSlots t slots).slots u = if u = t then slots else s.slots u := Function.update_apply ..
@[simp, grind =] theorem setSlots_pc_apply : (s.setSlots t slots).pc u = s.pc u := rfl
@[simp, grind =] theorem setSlots_containers_apply :
    (s.setSlots t slots).containers d = s.containers d := rfl
@[simp, grind =] theorem setSlots_ended_apply : (s.setSlots t slots).ended u = s.ended u := rfl
@[simp, grind =] theorem setSlots_returned : (s.setSlots t slots).returned = s.returned := rfl
@[simp, grind =] theorem setSlots_created : (s.setSlots t slots).created = s.created := rfl
@[simp, grind =] theorem setSlots_containerId :
    (s.setSlots t slots).containerId = s.containerId := rfl

@[simp, grind =] theorem finish_pc_apply :
    (s.finish t c ptr).pc u = if u = t then .done c ptr else s.pc u := Function.update_apply ..
@[simp, grind =] theorem finish_returned :
    (s.finish t c ptr).returned = (t, c, ptr) :: s.returned := rfl
@[simp, grind =] theorem finish_containers_apply :
    (s.finish t c ptr).containers d = s.containers d := rfl
@[simp, grind =] theorem finish_slots_apply : (s.finish t c ptr).slots u = s.slots u := rfl
@[simp, grind =] theorem finish_ended_apply : (s.finish t c ptr).ended u = s.ended u := rfl
@[simp, grind =] theorem finish_created : (s.finish t c ptr).created = s.created := rfl
@[simp, grind =] theorem finish_containerId :
    (s.finish t c ptr).containerId = s.containerId := rfl

end Fields

/-- Every constructor makes a container in the same way. -/
theorem create_eq_fresh (s : State Thread Address w) (how : Constructor) :
    s.create how = s.fresh := by
  cases how <;> rfl

/-- The thread has registered this counter for the container. -/
def Owns (s : State Thread Address w) (t : Thread) (c : Nat) (ptr : Address) : Prop :=
  (t, c, ptr) ∈ s.returned ∨ s.pc t = .release c ptr

/-- The ids in use, and where threads and entries may be. -/
structure Named (s : State Thread Address w) : Prop where
  created_lt : s.created < 2 ^ w
  containerId_eq : s.containerId = BitVec.ofNat w s.created
  id_eq : ∀ c shared, s.containers c = some shared → shared.id = BitVec.ofNat w c
  live_lt : ∀ c shared, s.containers c = some shared → c < s.created
  calling : ∀ t c, (s.pc t).container = some c →
    s.ended t = false ∧ ∃ shared, s.containers c = some shared ∧ t ∈ shared.callers
  cached : ∀ t, (s.slots t).Coherent
  cached_lt : ∀ t id ptr, (id, ptr) ∈ (s.slots t).all → ∃ c < s.created, id = BitVec.ofNat w c

/-- Before the first container no id is in use. -/
theorem Named.start : (State.start Thread Address w).Named where
  created_lt := Nat.two_pow_pos w
  containerId_eq := rfl
  id_eq := by simp [State.start]
  live_lt := by simp [State.start]
  calling := by simp [State.start, Pc.container]
  cached := fun _ => .new
  cached_lt := by simp [State.start, ReaderSlots.new]

/-- Ids of containers created so far are distinct. -/
theorem Named.ofNat_injective {s : State Thread Address w} (named : s.Named) {c d : Nat}
    (left : c < s.created)
    (right : d < s.created) (same : BitVec.ofNat w c = BitVec.ofNat w d) : c = d := by
  have bound := named.created_lt
  have values := congrArg BitVec.toNat same
  rwa [BitVec.toNat_ofNat, BitVec.toNat_ofNat, Nat.mod_eq_of_lt (by omega),
    Nat.mod_eq_of_lt (by omega)] at values

/-- The counters of a container that exists are allocated. -/
theorem Named.allocated {s : State Thread Address w} (named : s.Named) {c : Nat}
    {shared : Shared Thread Address w} {ptr : Address} (live : s.containers c = some shared)
    (member : ptr ∈ shared.registry) : s.Allocated ptr := by
  refine ⟨c, named.live_lt c shared live, ?_⟩
  rw [registry, live]
  exact member

/-- The container a thread is about to push to exists. -/
theorem Named.live_of_push {s : State Thread Address w} (named : s.Named) {t : Thread} {c : Nat}
    (here : s.pc t = .push c) :
    ∃ shared, s.containers c = some shared := by
  obtain ⟨-, shared, live, -⟩ := named.calling t c (by rw [here]; rfl)
  exact ⟨shared, live⟩

/-- What is owned, what is cached and what is registered agree. -/
structure Owned (s : State Thread Address w) : Prop where
  owns_lt : ∀ t c ptr, s.Owns t c ptr → c < s.created
  owner_unique : ∀ t u c ptr, s.Owns t c ptr → s.Owns u c ptr → t = u
  counter_unique : ∀ t c ptr other, s.Owns t c ptr → s.Owns t c other → ptr = other
  cached_iff : ∀ t c ptr, s.ended t = false → c < s.created →
    ((BitVec.ofNat w c, ptr) ∈ (s.slots t).all ↔ s.Owns t c ptr)
  unregistered : ∀ t c, s.pc t = .register c ∨ s.pc t = .push c → ∀ ptr, ¬ s.Owns t c ptr
  registry_iff : ∀ c shared ptr, s.containers c = some shared →
    (ptr ∈ shared.registry ↔ ∃ t, s.Owns t c ptr)
  registry_nodup : ∀ c shared, s.containers c = some shared → shared.registry.Nodup
  registry_disjoint : ∀ c d left right ptr, s.containers c = some left →
    s.containers d = some right → ptr ∈ left.registry → ptr ∈ right.registry → c = d
  done_returned : ∀ t c ptr, s.pc t = .done c ptr → (t, c, ptr) ∈ s.returned

/-- A thread about to push has no entry for the container yet. -/
theorem Owned.fresh_of_push {s : State Thread Address w} (owned : s.Owned) (named : s.Named)
    (t : Thread) (c : Nat) (shared : Shared Thread Address w) (ptr : Address)
    (here : s.pc t = .push c) (live : s.containers c = some shared) :
    (shared.id, ptr) ∉ (s.slots t).all := by
  obtain ⟨running, -⟩ := named.calling t c (by rw [here]; rfl)
  rw [named.id_eq c shared live, owned.cached_iff t c ptr running (named.live_lt c shared live)]
  exact owned.unregistered t c (.inr here) ptr

/-- Before the first container nobody owns a counter. -/
theorem not_owns_start {t : Thread} {c : Nat} {ptr : Address} :
    ¬ (State.start Thread Address w).Owns t c ptr := by
  simp [Owns, State.start]

/-- So what is owned, cached and registered agrees. -/
theorem Owned.start : (State.start Thread Address w).Owned where
  owns_lt _ _ _ owns := absurd owns not_owns_start
  owner_unique _ _ _ _ owns := absurd owns not_owns_start
  counter_unique _ _ _ _ owns := absurd owns not_owns_start
  cached_iff _ _ _ _ below := absurd below (Nat.not_lt_zero _)
  unregistered := by simp [State.start]
  registry_iff := by simp [State.start]
  registry_nodup := by simp [State.start]
  registry_disjoint := by simp [State.start]
  done_returned := by simp [State.start]

variable [DecidableEq Thread]

/-- The effects of one step. -/
inductive Moves (s : State Thread Address w) :
    Action Thread Address → State Thread Address w → Prop where
  | create {how} : Moves s (.create how) s.fresh
  | drop {c shared} (live : s.containers c = some shared) (free : shared.callers = []) :
      Moves s (.drop c) { s with containers := Function.update s.containers c none }
  | call {t c shared} (idle : s.pc t = .idle) (live : s.containers c = some shared)
      (running : s.ended t = false) :
      Moves s (.call t c)
        ((s.set c { shared with callers := t :: shared.callers }).goto t (.lookup c))
  | known {t c shared ptr} (here : s.pc t = .lookup c) (live : s.containers c = some shared)
      (found : ((s.slots t).lookup shared.id).1 = some ptr) :
      Moves s (.step t) ((s.setSlots t ((s.slots t).lookup shared.id).2).finish t c ptr)
  | unknown {t c shared} (here : s.pc t = .lookup c) (live : s.containers c = some shared)
      (missing : ((s.slots t).lookup shared.id).1 = none) :
      Moves s (.step t) ((s.setSlots t ((s.slots t).lookup shared.id).2).goto t (.register c))
  | register {t c shared} (here : s.pc t = .register c) (live : s.containers c = some shared)
      (free : shared.registryLock = none) :
      Moves s (.step t) ((s.set c { shared with registryLock := some t }).goto t (.push c))
  | push {t c shared address} (here : s.pc t = .push c) (live : s.containers c = some shared)
      (free : ¬ s.Allocated address) :
      Moves s (.push t address)
        (((s.set c { shared with registry := shared.registry ++ [address] }).setSlots t
          ((s.slots t).remember shared.id address)).goto t (.release c address))
  | release {t c ptr shared} (here : s.pc t = .release c ptr)
      (live : s.containers c = some shared) :
      Moves s (.step t) ((s.set c { shared with registryLock := none }).finish t c ptr)
  | leave {t c ptr shared} (here : s.pc t = .done c ptr) (live : s.containers c = some shared) :
      Moves s (.leave t)
        ((s.set c { shared with callers := shared.callers.erase t }).goto t .idle)
  | exit {t} (here : s.pc t = .idle) :
      Moves s (.exit t) { s with
        ended := Function.update s.ended t true
        slots := Function.update s.slots t (.new Address w) }

variable {s next : State Thread Address w} {action : Action Thread Address}

/-- Every step has one of the listed effects. -/
theorem moves_of_step [DecidableEq Address] (stepped : s.step action = some next) :
    Moves s action next := by
  cases action with
  | create how =>
      have created : s.create how = next := Option.some.inj stepped
      rw [create_eq_fresh] at created
      exact created ▸ .create
  | drop c =>
      simp only [step] at stepped
      split at stepped
      case h_1 shared live =>
        obtain ⟨free, ⟨⟩⟩ := Option.ite_none_right_eq_some.mp stepped
        exact .drop live free
      case h_2 => cases stepped
  | call t c =>
      simp only [step] at stepped
      split at stepped
      case h_1 shared idle live =>
        obtain ⟨running, ⟨⟩⟩ := Option.ite_none_right_eq_some.mp stepped
        exact .call idle live running
      case h_2 => cases stepped
  | step t =>
      simp only [step] at stepped
      split at stepped
      case h_1 c here =>
        split at stepped
        case h_1 shared live =>
          split at stepped
          case h_1 ptr slots found =>
            cases stepped
            have move := Moves.known here live (congrArg Prod.fst found)
            rwa [found] at move
          case h_2 slots missing =>
            cases stepped
            have move := Moves.unknown here live (congrArg Prod.fst missing)
            rwa [missing] at move
        case h_2 => cases stepped
      case h_2 c here =>
        split at stepped
        case h_1 shared live =>
          obtain ⟨free, ⟨⟩⟩ := Option.ite_none_right_eq_some.mp stepped
          exact .register here live free
        case h_2 => cases stepped
      case h_3 c ptr here =>
        split at stepped
        case h_1 shared live => exact Option.some.inj stepped ▸ .release here live
        case h_2 => cases stepped
      all_goals cases stepped
  | push t address =>
      simp only [step] at stepped
      split at stepped
      case h_1 c here =>
        split at stepped
        case h_1 shared live =>
          obtain ⟨free, ⟨⟩⟩ := Option.ite_none_right_eq_some.mp stepped
          exact .push here live free
        case h_2 => cases stepped
      case h_2 => cases stepped
  | leave t =>
      simp only [step] at stepped
      split at stepped
      case h_1 c ptr here =>
        split at stepped
        case h_1 shared live => exact Option.some.inj stepped ▸ .leave here live
        case h_2 => cases stepped
      case h_2 => cases stepped
  | exit t =>
      simp only [step] at stepped
      split at stepped
      case h_1 here => exact Option.some.inj stepped ▸ .exit here
      case h_2 => cases stepped

namespace Named

variable (named : s.Named)
include named

/-- A new container gets the id that counts it. -/
theorem id_eq_preserved (move : Moves s action next) (c : Nat) (shared : Shared Thread Address w)
    (live : next.containers c = some shared) : shared.id = BitVec.ofNat w c := by
  have old := named.id_eq
  have counter := named.containerId_eq
  cases move with
  | drop =>
      simp only [Function.update_apply] at live
      grind
  | _ => grind

/-- Only a container that was created exists. -/
theorem live_lt_preserved (move : Moves s action next) (c : Nat)
    (shared : Shared Thread Address w) (live : next.containers c = some shared) :
    c < next.created := by
  have old := named.live_lt
  cases move with
  | drop =>
      simp only [Function.update_apply] at live
      grind
  | _ => grind

/-- A container that a call borrows is not dropped, nor does the thread of the call end. -/
theorem calling_preserved (move : Moves s action next) (t : Thread) (c : Nat)
    (calling : (next.pc t).container = some c) :
    next.ended t = false ∧ ∃ shared, next.containers c = some shared ∧ t ∈ shared.callers := by
  have old := named.calling t
  have below := named.live_lt
  cases move with
  | @drop d shared live free =>
      obtain ⟨running, other, liveOther, borrowed⟩ := old c calling
      have different : c ≠ d := by
        rintro rfl
        rw [live] at liveOther
        cases liveOther
        simp [free] at borrowed
      exact ⟨running, other, by simpa [different] using liveOther, borrowed⟩
  | @leave u d ptr shared here live =>
      have different : t ≠ u := by
        rintro rfl
        simp [Pc.container] at calling
      rw [goto_pc_apply, if_neg different] at calling
      obtain ⟨running, other, liveOther, borrowed⟩ := old c calling
      refine ⟨running, ?_⟩
      rw [goto_containers_apply, set_containers_apply]
      split
      case isTrue same =>
        subst same
        rw [live] at liveOther
        cases liveOther
        exact ⟨_, rfl, (List.mem_erase_of_ne different).mpr borrowed⟩
      case isFalse => exact ⟨other, liveOther, borrowed⟩
  | @exit u here =>
      have different : t ≠ u := by
        rintro rfl
        simp [here, Pc.container] at calling
      obtain ⟨running, borrowed⟩ := old c calling
      exact ⟨by simpa [different] using running, borrowed⟩
  | _ => grind

/-- The cache and `all` of a thread agree after each of its own steps, and no other thread
touches them. -/
theorem cached_preserved (move : Moves s action next) (fresh : ∀ t c shared ptr,
      s.pc t = .push c → s.containers c = some shared → (shared.id, ptr) ∉ (s.slots t).all)
    (t : Thread) : (next.slots t).Coherent := by
  have old := named.cached
  cases move with
  | known =>
      rw [finish_slots_apply, setSlots_slots_apply]
      split
      · exact (old _).lookup
      · exact old t
  | unknown =>
      rw [goto_slots_apply, setSlots_slots_apply]
      split
      · exact (old _).lookup
      · exact old t
  | push here live =>
      rw [goto_slots_apply, setSlots_slots_apply]
      split
      · exact (old _).remember fun ptr => fresh _ _ _ ptr here live
      · exact old t
  | @exit u here =>
      by_cases actor : t = u
      · simpa [actor] using ReaderSlots.Coherent.new
      · simpa [actor] using old t
  | _ => exact old t

/-- What is pushed to `all` has the id of a container that was created. -/
theorem cached_lt_preserved (move : Moves s action next) (t : Thread) (id : BitVec w)
    (ptr : Address) (member : (id, ptr) ∈ (next.slots t).all) :
    ∃ c < next.created, id = BitVec.ofNat w c := by
  have old := named.cached_lt t id ptr
  cases move with
  | create =>
      obtain ⟨c, below, key⟩ := old member
      exact ⟨c, Nat.lt_succ_of_lt below, key⟩
  | known =>
      rw [finish_slots_apply, setSlots_slots_apply] at member
      split at member <;> simp_all
  | unknown =>
      rw [goto_slots_apply, setSlots_slots_apply] at member
      split at member <;> simp_all
  | @push u c shared address here live =>
      rw [goto_slots_apply, setSlots_slots_apply] at member
      split at member
      case isTrue same =>
        subst same
        rcases List.mem_append.mp member with member | member
        · exact old member
        · obtain ⟨rfl, -⟩ : id = shared.id ∧ _ := by simpa using member
          exact ⟨c, named.live_lt c shared live, named.id_eq c shared live⟩
      case isFalse => exact old member
  | @exit u here =>
      by_cases actor : t = u
      · simp [actor, ReaderSlots.new] at member
      · exact old (by simpa [actor] using member)
  | _ => exact old member

/-- Every step keeps ids and entries where they may be, as long as a push is of a
counter that the thread has no entry for. -/
theorem preserved (move : Moves s action next) (few : s.FewContainers action)
    (fresh : ∀ t c shared ptr,
      s.pc t = .push c → s.containers c = some shared → (shared.id, ptr) ∉ (s.slots t).all) :
    next.Named where
  created_lt := by
    have old := named.created_lt
    cases move <;> first | exact few | exact old
  containerId_eq := by
    have old := named.containerId_eq
    cases move with
    | create => simp [old, BitVec.ofNat_add]
    | _ => exact old
  id_eq := named.id_eq_preserved move
  live_lt := named.live_lt_preserved move
  calling := named.calling_preserved move
  cached := named.cached_preserved move fresh
  cached_lt := named.cached_lt_preserved move

end Named

namespace Owned

variable (owned : s.Owned)
include owned

/-- Only a push makes a thread own a counter, and nothing ends it. -/
theorem owns_preserved (named : s.Named) (move : Moves s action next) (u : Thread) (d : Nat)
    (ptr : Address) : next.Owns u d ptr ↔
      s.Owns u d ptr ∨ (action = .push u ptr ∧ s.pc u = .push d) := by
  unfold Owns
  cases move with
  | @known t c shared found here live hit =>
      -- What the search finds was registered by the thread itself.
      obtain ⟨running, -⟩ := named.calling t c (by rw [here]; rfl)
      rw [(named.cached t).lookup_fst, (named.cached t).search_eq_some,
        named.id_eq c shared live,
        owned.cached_iff t c found running (named.live_lt c shared live)] at hit
      unfold Owns at hit
      grind
  | _ => grind

/-- A counter that has just been allocated has no owner in a container that exists. -/
theorem not_owns_of_push (named : s.Named) (move : Moves s action next) {t u : Thread} {c : Nat}
    {ptr : Address} (pushed : action = .push t ptr) (here : s.pc t = .push c) :
    ¬ s.Owns u c ptr := by
  intro owns
  obtain ⟨shared, live⟩ := named.live_of_push here
  have member := (owned.registry_iff c shared ptr live).mpr ⟨u, owns⟩
  cases move with
  | push here' live' free =>
      cases pushed
      exact free (named.allocated live member)
  | _ => cases pushed

/-- A counter is registered for a container that exists. -/
theorem owns_lt_preserved (named : s.Named) (move : Moves s action next) (t : Thread) (c : Nat)
    (ptr : Address) (owns : next.Owns t c ptr) : c < next.created := by
  have grows : s.created ≤ next.created := by
    cases move with
    | create => exact Nat.le_succ _
    | _ => exact Nat.le_refl _
  rcases (owned.owns_preserved named move t c ptr).mp owns with old | ⟨-, here⟩
  · exact Nat.lt_of_lt_of_le (owned.owns_lt t c ptr old) grows
  · obtain ⟨shared, live⟩ := named.live_of_push here
    exact Nat.lt_of_lt_of_le (named.live_lt c shared live) grows

/-- A counter that is pushed was allocated just now, so that nobody owns it yet. -/
theorem owner_unique_preserved (named : s.Named) (move : Moves s action next) (t u : Thread)
    (c : Nat) (ptr : Address) (left : next.Owns t c ptr) (right : next.Owns u c ptr) : t = u := by
  rcases (owned.owns_preserved named move t c ptr).mp left with left | ⟨left, here⟩ <;>
    rcases (owned.owns_preserved named move u c ptr).mp right with right | ⟨right, there⟩
  · exact owned.owner_unique t u c ptr left right
  · exact absurd left (owned.not_owns_of_push named move right there)
  · exact absurd right (owned.not_owns_of_push named move left here)
  · cases left.symm.trans right
    rfl

/-- A thread that pushes has no counter in the container yet. -/
theorem counter_unique_preserved (named : s.Named) (move : Moves s action next) (t : Thread)
    (c : Nat) (ptr other : Address) (left : next.Owns t c ptr) (right : next.Owns t c other) :
    ptr = other := by
  rcases (owned.owns_preserved named move t c ptr).mp left with left | ⟨left, here⟩ <;>
    rcases (owned.owns_preserved named move t c other).mp right with right | ⟨right, there⟩
  · exact owned.counter_unique t c ptr other left right
  · exact absurd left (owned.unregistered t c (.inr there) ptr)
  · exact absurd right (owned.unregistered t c (.inr here) other)
  · cases left.symm.trans right
    rfl

/-- A push goes to `all` and to the registry; ids of different containers differ, so no
entry is taken for that of another container. -/
theorem cached_iff_preserved (named : s.Named) (move : Moves s action next)
    (few : s.FewContainers action) (t : Thread) (c : Nat) (ptr : Address)
    (running : next.ended t = false) (below : c < next.created) :
    (BitVec.ofNat w c, ptr) ∈ (next.slots t).all ↔ next.Owns t c ptr := by
  have old := owned.cached_iff t c ptr
  rw [owned.owns_preserved named move]
  cases move with
  | create =>
      rcases Nat.lt_succ_iff_lt_or_eq.mp below with below | rfl
      · simpa using old running below
      · -- The new id is no older container's.
        have unknown : (BitVec.ofNat w s.created, ptr) ∉ (s.slots t).all := by
          intro member
          obtain ⟨c, earlier, same⟩ := named.cached_lt t _ ptr member
          have values := congrArg BitVec.toNat same
          have bound : s.created + 1 < 2 ^ w := few
          rw [BitVec.toNat_ofNat, BitVec.toNat_ofNat, Nat.mod_eq_of_lt (by omega),
            Nat.mod_eq_of_lt (by omega)] at values
          omega
        have unowned : ¬ s.Owns t s.created ptr := fun owns =>
          Nat.lt_irrefl _ (owned.owns_lt t _ ptr owns)
        simp [unknown, unowned]
  | @push u d shared address here live free =>
      have key := named.id_eq d shared live
      have same : BitVec.ofNat w c = shared.id ↔ c = d := by
        rw [key]
        exact ⟨named.ofNat_injective below (named.live_lt d shared live), congrArg _⟩
      have old := old running below
      by_cases actor : t = u
      · subst actor
        simp only [goto_slots_apply, setSlots_slots_apply, if_true, ReaderSlots.remember,
          List.mem_append, List.mem_singleton, Prod.mk.injEq, old, same, here]
        grind
      · simp only [goto_slots_apply, setSlots_slots_apply, actor, if_false, set_slots_apply, old]
        grind
  | @known u d shared found here live hit =>
      simp only [finish_slots_apply, setSlots_slots_apply]
      split <;> simp_all
  | @unknown u d shared here live missing =>
      simp only [goto_slots_apply, setSlots_slots_apply]
      split <;> simp_all
  | @exit u here =>
      by_cases actor : t = u
      · simp [actor] at running
      · simpa [actor] using old (by simpa [actor] using running) below
  | _ => simpa using old running below

/-- A thread is about to register only after its lookup has found nothing. -/
theorem unregistered_preserved (named : s.Named) (move : Moves s action next) (t : Thread)
    (c : Nat) (here : next.pc t = .register c ∨ next.pc t = .push c) (ptr : Address) :
    ¬ next.Owns t c ptr := by
  have old := owned.unregistered t c
  rw [owned.owns_preserved named move]
  cases move with
  | @unknown u d shared before live missing =>
      by_cases actor : t = u
      · subst actor
        obtain rfl : d = c := by simpa using here
        obtain ⟨running, -⟩ := named.calling t d (by rw [before]; rfl)
        rw [(named.cached t).lookup_fst] at missing
        rintro (owns | ⟨pushed, -⟩)
        · have member := (owned.cached_iff t d ptr running (named.live_lt d shared live)).mpr owns
          rw [← named.id_eq d shared live, ← (named.cached t).search_eq_some, missing] at member
          cases member
        · cases pushed
      · grind
  | _ => grind

/-- The registry holds what its pushes have put there, each for the thread that pushed. -/
theorem registry_iff_preserved (named : s.Named) (move : Moves s action next) (c : Nat)
    (shared : Shared Thread Address w) (ptr : Address) (live : next.containers c = some shared) :
    ptr ∈ shared.registry ↔ ∃ t, next.Owns t c ptr := by
  have old := owned.registry_iff c
  simp only [owned.owns_preserved named move]
  cases move with
  | create =>
      rw [fresh_containers_apply] at live
      split at live
      case isTrue same =>
        cases live
        simp only [List.not_mem_nil, false_iff, not_exists]
        rintro t (owns | ⟨pushed, -⟩)
        · exact Nat.lt_irrefl _ (same ▸ owned.owns_lt t c ptr owns)
        · cases pushed
      case isFalse => simpa using old shared ptr live
  | @drop d other here free =>
      have stays : s.containers c = some shared := by
        simp only [Function.update_apply] at live
        split at live
        · cases live
        · exact live
      simpa using old shared ptr stays
  | @push u d other address here liveHere free =>
      rw [goto_containers_apply, setSlots_containers_apply, set_containers_apply] at live
      split at live
      case isTrue same =>
        subst same
        cases live
        simp only [List.mem_append, List.mem_singleton, old other ptr liveHere]
        grind
      case isFalse different => grind
  | exit here => simpa using old shared ptr live
  | _ => grind

/-- A counter just allocated is not in the registry yet. -/
theorem registry_nodup_preserved (named : s.Named) (move : Moves s action next) (c : Nat)
    (shared : Shared Thread Address w) (live : next.containers c = some shared) :
    shared.registry.Nodup := by
  have old := owned.registry_nodup c
  cases move with
  | drop =>
      simp only [Function.update_apply] at live
      grind
  | @push u d other address here liveHere free =>
      rw [goto_containers_apply, setSlots_containers_apply, set_containers_apply] at live
      split at live
      case isTrue same =>
        subst same
        cases live
        refine List.nodup_append.mpr ⟨old other liveHere, List.nodup_singleton _, ?_⟩
        rintro ptr member _ single rfl
        exact free (named.allocated liveHere (List.mem_singleton.mp single ▸ member))
      case isFalse => exact old shared live
  | exit here => exact old shared live
  | _ => grind

/-- The registry of a container that exists grows by allocated counters only. -/
theorem registry_disjoint_preserved (named : s.Named) (move : Moves s action next) (c d : Nat)
    (left right : Shared Thread Address w) (ptr : Address)
    (liveLeft : next.containers c = some left)
    (liveRight : next.containers d = some right) (inLeft : ptr ∈ left.registry)
    (inRight : ptr ∈ right.registry) : c = d := by
  have old := owned.registry_disjoint c d
  cases move with
  | drop =>
      simp only [Function.update_apply] at liveLeft liveRight
      grind
  | @push u e other address here live free =>
      have taken (c : Nat) (shared : Shared Thread Address w)
          (live : s.containers c = some shared) (member : address ∈ shared.registry) : False :=
        free (named.allocated live member)
      grind
  | exit here => exact old left right ptr liveLeft liveRight inLeft inRight
  | _ => grind

/-- What a call returns is on record. -/
theorem done_returned_preserved (move : Moves s action next) (t : Thread) (c : Nat)
    (ptr : Address) (here : next.pc t = .done c ptr) : (t, c, ptr) ∈ next.returned := by
  have old := owned.done_returned t c ptr
  cases move <;> grind

/-- Every step keeps what is owned, cached and registered in agreement. -/
theorem preserved (named : s.Named) (move : Moves s action next) (few : s.FewContainers action) :
    next.Owned where
  owns_lt := owned.owns_lt_preserved named move
  owner_unique := owned.owner_unique_preserved named move
  counter_unique := owned.counter_unique_preserved named move
  cached_iff := owned.cached_iff_preserved named move few
  unregistered := owned.unregistered_preserved named move
  registry_iff := owned.registry_iff_preserved named move
  registry_nodup := owned.registry_nodup_preserved named move
  registry_disjoint := owned.registry_disjoint_preserved named move
  done_returned := owned.done_returned_preserved move

end Owned

/-- Slots and registries agree in every run. -/
theorem coherent_of_reachable [DecidableEq Address]
    (reachable : (Slots.slots Thread Address w).Reachable s) : s.Named ∧ s.Owned := by
  refine reachable.invariant (fun s => s.Named ∧ s.Owned) ?_ ?_
  · rintro _ rfl
    exact ⟨.start, .start⟩
  · rintro s action next - ⟨named, owned⟩ ⟨few, stepped⟩
    have move := moves_of_step stepped
    exact ⟨named.preserved move few (owned.fresh_of_push named), owned.preserved named move few⟩

end State

/-- In every run that creates fewer than `2 ^ w` containers: a call returns a
counter of the container's own registry; all calls of one thread for one
container return the same counter; different threads, and containers that exist
at the same time, have different counters; the registry of a container has one
counter for each thread that has read it; the fast path returns what the search
would; and what a lookup finds for a container was registered for it. -/
theorem reader_slots_coherent {Thread Address : Type} [DecidableEq Thread]
    [DecidableEq Address] {w : Nat} {s : State Thread Address w}
    (reachable : (slots Thread Address w).Reachable s) :
    (∀ t c ptr, s.pc t = .done c ptr →
      ∃ shared, s.containers c = some shared ∧ ptr ∈ shared.registry) ∧
    (∀ t c ptr other, (t, c, ptr) ∈ s.returned → (t, c, other) ∈ s.returned → ptr = other) ∧
    (∀ t u c ptr, (t, c, ptr) ∈ s.returned → (u, c, ptr) ∈ s.returned → t = u) ∧
    (∀ t u c d ptr, (∃ shared, s.containers c = some shared) →
      (∃ shared, s.containers d = some shared) →
      (t, c, ptr) ∈ s.returned → (u, d, ptr) ∈ s.returned → c = d) ∧
    (∀ c shared, s.containers c = some shared → shared.registry.Nodup ∧
      (∀ ptr ∈ shared.registry, ∃! t, s.Owns t c ptr) ∧
      ∀ t, (∃ ptr, s.Owns t c ptr) → ∃! ptr, ptr ∈ shared.registry ∧ s.Owns t c ptr) ∧
    (∀ t id, ((s.slots t).lookup id).1 = (s.slots t).search id) ∧
    ∀ t c shared ptr, s.ended t = false → s.containers c = some shared →
      ((s.slots t).lookup shared.id).1 = some ptr → s.Owns t c ptr ∧ ptr ∈ shared.registry := by
  obtain ⟨named, owned⟩ := State.coherent_of_reachable reachable
  refine ⟨?_, ?_, ?_, ?_, ?_, fun t _ => (named.cached t).lookup_fst, ?_⟩
  · intro t c ptr here
    obtain ⟨-, shared, live, -⟩ := named.calling t c (by rw [here]; rfl)
    exact ⟨shared, live, (owned.registry_iff c shared ptr live).mpr
      ⟨t, .inl (owned.done_returned t c ptr here)⟩⟩
  · exact fun t c ptr other left right =>
      owned.counter_unique t c ptr other (.inl left) (.inl right)
  · exact fun t u c ptr left right => owned.owner_unique t u c ptr (.inl left) (.inl right)
  · rintro t u c d ptr ⟨shared, live⟩ ⟨other, liveOther⟩ left right
    exact owned.registry_disjoint c d shared other ptr live liveOther
      ((owned.registry_iff c shared ptr live).mpr ⟨t, .inl left⟩)
      ((owned.registry_iff d other ptr liveOther).mpr ⟨u, .inl right⟩)
  · intro c shared live
    refine ⟨owned.registry_nodup c shared live, fun ptr member => ?_, fun t registered => ?_⟩
    · obtain ⟨t, owns⟩ := (owned.registry_iff c shared ptr live).mp member
      exact ⟨t, owns, fun u other => owned.owner_unique u t c ptr other owns⟩
    · obtain ⟨ptr, owns⟩ := registered
      exact ⟨ptr, ⟨(owned.registry_iff c shared ptr live).mpr ⟨t, owns⟩, owns⟩,
        fun other both => owned.counter_unique t c other ptr both.2 owns⟩
  · intro t c shared ptr running live found
    rw [(named.cached t).lookup_fst, (named.cached t).search_eq_some, named.id_eq c shared live,
      owned.cached_iff t c ptr running (named.live_lt c shared live)] at found
    exact ⟨found, (owned.registry_iff c shared ptr live).mpr ⟨t, found⟩⟩

/-- Two threads and two containers. One thread reads the first, the second, and the
first twice more, where the last read is a hit of the fast path; the other thread reads
the first; then the second is dropped. -/
theorem repeated_reads_coherent : ∃ (s : State (Fin 2) Nat 64) (shared : Shared (Fin 2) Nat 64),
    s.returned = [(1, 0, 9), (0, 0, 7), (0, 0, 7), (0, 1, 8), (0, 0, 7)] ∧
      (s.containers 1).isNone ∧ s.containers 0 = some shared ∧
      (∀ other, (0, 0, other) ∈ s.returned → 7 = other) ∧
      ((s.slots 0).lookup shared.id).1 = some 7 ∧ s.Owns 0 0 7 ∧ 7 ∈ shared.registry := by
  obtain ⟨s, reachable, met⟩ := System.exists_reachable_of_execute_guarded
    (fun s : State (Fin 2) Nat 64 => decide (s.returned =
        [(1, 0, 9), (0, 0, 7), (0, 0, 7), (0, 1, 8), (0, 0, 7)] ∧ s.ended 0 = false ∧
      (s.containers 1).isNone ∧ (s.containers 0).any fun shared =>
        ((s.slots 0).lookup shared.id).1 = some 7))
    (show (System.execute (System.guarded State.step State.FewContainers) (.start (Fin 2) Nat 64)
      [.create .new, .create .new, .call 0 0, .step 0, .step 0, .push 0 7, .step 0, .leave 0,
        .call 0 1, .step 0, .step 0, .push 0 8, .step 0, .leave 0, .call 0 0, .step 0, .leave 0,
        .call 0 0, .step 0, .leave 0, .call 1 0, .step 1, .step 1, .push 1 9, .step 1, .leave 1,
        .drop 1]).any _ = true by decide +kernel)
  obtain ⟨returned, running, dropped, found⟩ := of_decide_eq_true met
  obtain ⟨shared, live, found⟩ := (Option.any_eq_true _ _).mp found
  have found := of_decide_eq_true found
  obtain ⟨-, one, -, -, -, -, known⟩ := reader_slots_coherent reachable
  have first : (0, 0, 7) ∈ s.returned := by
    rw [returned]
    decide
  exact ⟨s, shared, returned, dropped, live, fun other => one 0 0 7 other first, found,
    known 0 0 shared 7 running live found⟩

end DarkStd.Sync.Slots
