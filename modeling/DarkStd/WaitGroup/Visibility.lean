import Mathlib.Data.Finset.Card
import DarkStd.Semantics.HappensBefore
import DarkStd.WaitGroup.Release

/-!
# What a wait makes known

A group is there so that what was done before the handles were dropped can be
relied on after the wait. Here it records what it does to memory: a message
releases what its sender knows to the call that receives it, and the operations
on `total` have the orderings of the source. A wait that returns has received
the message of every other handle itself, so the orderings on `total` do not
matter for it.
-/

namespace DarkStd.WaitGroup

open DarkStd.Semantics

/-- What the handles share: `total`, and the messages in the order in which they
are sent. -/
inductive Location where
  | total
  | message (position : Nat)
deriving DecidableEq, Repr

/-- A group with the operations on memory so far. `drops` are the handles that
have been dropped, each with its operation. -/
structure Traced (Thread : Type) where
  group : State Thread
  drops : List (Nat × Nat)
  events : List (MemoryEvent Thread Location)

/-- What may happen to a group: a handle is dropped by some thread, or anything
else. -/
inductive TracedAction (Thread : Type) where
  | act (action : Action Thread)
  | drop (thread : Thread) (handle : Nat)

/-- What happens to the group. -/
def TracedAction.below {Thread : Type} : TracedAction Thread → Action Thread
  | .act action => action
  | .drop _ handle => .drop handle

namespace State

variable {Thread : Type}

/-- What the next step of a running call does to memory. -/
def operation (overflowChecks : Bool) (s : State Thread) (t : Thread) :
    Option (Operation Location) :=
  match s.pc t with
  | .fetchOr .. => some (.update .total .seqCst)
  | .store _ v _ current =>
      if overflowChecks ∧ 2 ^ 64 ≤ current.toNat + v.toNat then none
      else some (.store .total .seqCst)
  | .load _ => some (.load .total .relaxed)
  | .recv _ _ => if s.queue = 0 then none else some (.load (.message s.received) .acquire)
  | .compare _ _ => some (.update .total .seqCst)
  | .idle | .build _ | .leave _ _ => none

/-- What an action other than a drop does to memory, if anything. -/
def event (overflowChecks : Bool) (s : State Thread) :
    Action Thread → Option (MemoryEvent Thread Location)
  | .step t => (s.operation overflowChecks t).map (⟨t, ·⟩)
  | .add .. | .clone .. | .wait .. | .cancel _ | .drop _ => none

end State

namespace Traced

variable {Thread : Type} [DecidableEq Thread]

/-- `WaitGroup::new` -/
def new (Thread : Type) : Traced Thread := ⟨.new Thread, [], []⟩

/-- After an action other than a drop. -/
def follow (s : Traced Thread) (overflowChecks : Bool) (action : Action Thread)
    (next : State Thread) : Traced Thread :=
  ⟨next, s.drops, s.events ++ (s.group.event overflowChecks action).toList⟩

/-- After the drop of a handle, which sends a message. -/
def send (s : Traced Thread) (t : Thread) (handle : Nat) (next : State Thread) : Traced Thread :=
  ⟨next, s.drops ++ [(handle, s.events.length)],
    s.events ++ [⟨t, .store (.message s.drops.length) .release⟩]⟩

/-- One action. -/
def step (overflowChecks : Bool) (s : Traced Thread) :
    TracedAction Thread → Option (Traced Thread)
  | .act (.drop _) => none
  | .act action => (s.group.step overflowChecks action).map (s.follow overflowChecks action)
  | .drop t handle => (s.group.step overflowChecks (.drop handle)).map (s.send t handle)

/-- Additions neither overlap nor wrap. -/
def Allowed (overflowChecks : Bool) (s : Traced Thread) (action : TracedAction Thread) : Prop :=
  s.group.Alone action.below ∧ s.group.Fits overflowChecks action.below

end Traced

instance {threads : Nat} (overflowChecks : Bool) (s : Traced (Fin threads))
    (action : TracedAction (Fin threads)) : Decidable (Traced.Allowed overflowChecks s action) :=
  inferInstanceAs (Decidable (_ ∧ _))

/-- A group, with what threads do to memory in it, where additions neither overlap
nor wrap. -/
def traced (overflowChecks : Bool) (Thread : Type) [DecidableEq Thread] :
    System (Traced Thread) (TracedAction Thread) :=
  (System.ofFunction (.new Thread) (Traced.step overflowChecks)).restrict
    (Traced.Allowed overflowChecks)

namespace Traced

open State

variable {Thread : Type}

/-- The thread knows of the drops whose messages have these positions. -/
def Knows (s : Traced Thread) (t : Thread) (positions : Finset Nat) : Prop :=
  ∀ k ∈ positions, ∀ handle i, s.drops[k]? = some (handle, i) →
    Semantics.Knows s.events t i

/-- Which drops are known where. -/
structure Heard (s : Traced Thread) : Prop where
  length_eq : s.drops.length = s.group.queue + s.group.received
  dropped : ∀ handle < s.group.created, handle ∉ s.group.handles → ∃ i, (handle, i) ∈ s.drops
  carried : ∀ k handle i, s.drops[k]? = some (handle, i) → s.group.received ≤ k →
    Carries s.events (.message k) i
  received : ∀ t handle current,
    s.group.pc t = .recv handle current ∨ s.group.pc t = .compare handle current →
      ∃ positions ⊆ Finset.range s.group.received,
        current.toNat ≤ positions.card ∧ s.Knows t positions
  leaving : ∀ t handle seen, s.group.pc t = .leave handle seen → ∀ other < seen,
    other ≠ handle → ∃ i, (other, i) ∈ s.drops ∧ Semantics.Knows s.events t i

theorem Heard.new : (Traced.new Thread).Heard where
  length_eq := rfl
  dropped := by simp [Traced.new, State.new]
  carried := by simp [Traced.new]
  received := by simp [Traced.new, State.new]
  leaving := by simp [Traced.new, State.new]

variable {s : Traced Thread} {t : Thread}

/-- Who has the messages of as many handles as there were, less one, knows of the
drops of all but its own. -/
theorem Heard.knows_of_enough (heard : s.Heard) (sound : s.group.Sound)
    {positions : Finset Nat} (within : positions ⊆ Finset.range s.group.received)
    (knows : s.Knows t positions) (enough : s.group.created ≤ positions.card + 1) {handle : Nat}
    (alive : handle ∈ s.group.handles) (other : Nat) (earlier : other < s.group.created)
    (different : other ≠ handle) :
    ∃ i, (other, i) ∈ s.drops ∧ Semantics.Knows s.events t i := by
  have few : positions.card ≤ s.group.received := by
    simpa using Finset.card_le_card within
  have messages := sound.messages
  have some_left : 0 < s.group.handles.length := List.length_pos_of_mem alive
  have all : positions = Finset.range s.group.received :=
    Finset.eq_of_subset_of_card_le within (by rw [Finset.card_range]; omega)
  have only := sound.handles_eq alive (by omega)
  obtain ⟨i, member⟩ := heard.dropped other earlier (by simpa [only] using different)
  obtain ⟨k, here⟩ := List.mem_iff_getElem?.mp member
  obtain ⟨below, -⟩ := List.getElem?_eq_some_iff.mp here
  have length_eq := heard.length_eq
  refine ⟨i, member, knows k ?_ other i here⟩
  rw [all, Finset.mem_range]
  omega

variable {overflowChecks : Bool} {action : Action Thread} {next : State Thread}

theorem knows_follow {positions : Finset Nat} (knows : s.Knows t positions) :
    (s.follow overflowChecks action next).Knows t positions :=
  fun k member handle i here => (knows k member handle i here).append

/-- Nothing but a drop sends a message. -/
theorem carries_follow {k i : Nat} (carries : Carries s.events (.message k) i) :
    Carries (s.follow overflowChecks action next).events (.message k) i := by
  refine carries.append fun event new place => ?_
  have performed := Option.mem_toList.mp new
  unfold State.event at performed
  split at performed
  · obtain ⟨operation, here, rfl⟩ := Option.map_eq_some_iff.mp performed
    unfold State.operation at here
    split at here <;> grind [Operation.overwrites, Operation.location]
  all_goals cases performed

/-- Who receives a message knows of its drop. -/
theorem knows_of_receive {handle i : Nat} {current : BitVec 64} {queue : Nat}
    (carries : Carries s.events (.message s.group.received) i)
    (here : s.group.pc t = .recv handle current) (sent : s.group.queue = queue + 1) :
    Semantics.Knows (s.follow overflowChecks (.step t) next).events t i := by
  have performed : (s.follow overflowChecks (.step t) next).events =
      s.events ++ [⟨t, .load (.message s.group.received) .acquire⟩] := by
    simp [follow, State.event, State.operation, here, sent]
  rw [performed]
  exact carries.knows rfl

variable [DecidableEq Thread]

namespace Heard

variable (heard : s.Heard) (sound : s.group.Sound)
variable (move : State.Moves overflowChecks s.group action next)
variable (stays : ∀ handle, action ≠ .drop handle)

include heard move stays in
theorem length_eq_follow : s.drops.length = next.queue + next.received := by
  have old := heard.length_eq
  cases move with
  | drop alive free => exact absurd rfl (stays _)
  | receive here sent => simp only [goto_queue, goto_received]; omega
  | _ => exact old

include heard move stays in
theorem dropped_follow (handle : Nat) (earlier : handle < next.created)
    (gone : handle ∉ next.handles) : ∃ i, (handle, i) ∈ s.drops := by
  have old := heard.dropped handle
  cases move with
  | drop alive free => exact absurd rfl (stays _)
  | build here =>
      simp only [finish_created, finish_handles, List.mem_cons, not_or] at earlier gone
      exact old (by omega) gone.2
  | _ => exact old earlier gone

include heard move in
theorem carried_follow (k handle i : Nat) (here : s.drops[k]? = some (handle, i))
    (waits : next.received ≤ k) :
    Carries (s.follow overflowChecks action next).events (.message k) i := by
  refine carries_follow (heard.carried k handle i here ?_)
  cases move with
  | receive here' sent => exact Nat.le_of_succ_le waits
  | _ => exact waits

include heard move in
theorem received_follow (t : Thread) (handle : Nat) (current : BitVec 64)
    (here : next.pc t = .recv handle current ∨ next.pc t = .compare handle current) :
    ∃ positions ⊆ Finset.range next.received, current.toNat ≤ positions.card ∧
      (s.follow overflowChecks action next).Knows t positions := by
  have later : s.group.received ≤ next.received := by
    cases move <;> simp
  have keep (before : s.group.pc t = .recv handle current ∨
      s.group.pc t = .compare handle current) :
      ∃ positions ⊆ Finset.range next.received, current.toNat ≤ positions.card ∧
        (s.follow overflowChecks action next).Knows t positions := by
    obtain ⟨positions, within, enough, knows⟩ := heard.received t handle current before
    exact ⟨positions, within.trans (Finset.range_mono later), enough, knows_follow knows⟩
  cases move with
  | @loadNonzero u other here' nonzero =>
      by_cases mine : t = u
      · obtain ⟨rfl, rfl⟩ : other = handle ∧ 0 = current := by simpa [mine] using here
        exact ⟨∅, by simp, by simp, by simp [Traced.Knows]⟩
      · exact keep (by simpa [mine] using here)
  | @receive u other before queue here' sent =>
      by_cases mine : t = u
      · subst mine
        obtain ⟨rfl, rfl⟩ : other = handle ∧ before + 1 = current := by simpa using here
        obtain ⟨positions, within, enough, knows⟩ := heard.received t other before (.inl here')
        have new : s.group.received ∉ positions := fun member =>
          absurd (Finset.mem_range.mp (within member)) (Nat.lt_irrefl _)
        have grows : (before + 1).toNat ≤ before.toNat + 1 := by
          rw [BitVec.toNat_add]
          exact Nat.mod_le _ _
        refine ⟨insert s.group.received positions, ?_, ?_, ?_⟩
        · intro k member
          rcases Finset.mem_insert.mp member with rfl | member
          · simp
          · exact Finset.range_mono later (within member)
        · rw [Finset.card_insert_of_notMem new]
          omega
        · intro k member other i there
          rcases Finset.mem_insert.mp member with rfl | member
          · exact knows_of_receive (heard.carried _ other i there (Nat.le_refl _)) here' sent
          · exact knows_follow knows k member other i there
      · exact keep (by simpa [mine] using here)
  | @more u other before here' below =>
      by_cases mine : t = u
      · subst mine
        obtain ⟨rfl, rfl⟩ : other = handle ∧ before = current := by simpa using here
        exact keep (.inr here')
      · exact keep (by simpa [mine] using here)
  | _ => exact keep (by grind)

include heard sound move in
theorem leaving_follow (counted : s.group.Counted) (t : Thread) (handle seen : Nat)
    (here : next.pc t = .leave handle seen) (other : Nat) (earlier : other < seen)
    (different : other ≠ handle) : ∃ i, (other, i) ∈ s.drops ∧
      Semantics.Knows (s.follow overflowChecks action next).events t i := by
  have keep (before : s.group.pc t = .leave handle seen) : ∃ i, (other, i) ∈ s.drops ∧
      Semantics.Knows (s.follow overflowChecks action next).events t i := by
    obtain ⟨i, member, knows⟩ := heard.leaving t handle seen before other earlier different
    exact ⟨i, member, knows.append⟩
  have created := counted.created_le
  cases move with
  | @loadZero u waited here' zero =>
      by_cases mine : t = u
      · subst mine
        obtain ⟨rfl, rfl⟩ : waited = handle ∧ s.group.created = seen := by simpa using here
        have alive := sound.borrowed t waited (by rw [here']; rfl)
        have below := sound.handles_lt waited alive
        have none : s.group.total.toNat = 0 := by rw [zero]; rfl
        omega
      · exact keep (by simpa [mine] using here)
  | @disconnected u waited current here' empty senders =>
      have alive := sound.borrowed u waited (by rw [here']; rfl)
      simp [senders] at alive
  | @enough u waited current here' reached =>
      by_cases mine : t = u
      · subst mine
        obtain ⟨rfl, rfl⟩ : waited = handle ∧ s.group.created = seen := by simpa using here
        obtain ⟨positions, within, enough, knows⟩ := heard.received t waited current (.inr here')
        have total : s.group.total.toNat ≤ current.toNat := BitVec.le_def.mp reached
        obtain ⟨i, member, knows⟩ := heard.knows_of_enough sound within knows (by omega)
          (sound.borrowed t waited (by rw [here']; rfl)) other earlier different
        exact ⟨i, member, knows.append⟩
      · exact keep (by simpa [mine] using here)
  | _ => exact keep (by grind)

/-- Every action but a drop. -/
theorem follow (heard : s.Heard) (sound : s.group.Sound) (counted : s.group.Counted)
    (move : State.Moves overflowChecks s.group action next)
    (stays : ∀ handle, action ≠ .drop handle) : (s.follow overflowChecks action next).Heard where
  length_eq := heard.length_eq_follow move stays
  dropped := heard.dropped_follow move stays
  carried := heard.carried_follow move
  received := heard.received_follow move
  leaving := heard.leaving_follow sound move counted

omit [DecidableEq Thread] in
/-- A drop sends its message. -/
theorem send (heard : s.Heard) {handle : Nat} :
    (s.send t handle { s.group with
      handles := s.group.handles.erase handle, queue := s.group.queue + 1 }).Heard where
  length_eq := by
    have old := heard.length_eq
    simp only [Traced.send, List.length_append, List.length_singleton]
    omega
  dropped := by
    intro other earlier gone
    by_cases same : other = handle
    · exact ⟨s.events.length, by simp [Traced.send, same]⟩
    · have absent : other ∉ s.group.handles := fun member =>
        gone ((List.mem_erase_of_ne same).mpr member)
      obtain ⟨i, member⟩ := heard.dropped other earlier absent
      exact ⟨i, List.mem_append_left _ member⟩
  carried := by
    intro k other i here waits
    rw [Traced.send, List.getElem?_append] at here
    split at here
    case isTrue below =>
      refine (heard.carried k other i here waits).append fun event new place => ?_
      obtain rfl := List.mem_singleton.mp new
      have same : s.drops.length = k := by simpa [Operation.location] using place
      omega
    case isFalse above =>
      obtain ⟨first, same⟩ := List.getElem?_eq_some_iff.mp here
      rw [List.length_singleton] at first
      have last : k = s.drops.length := by omega
      obtain ⟨rfl, rfl⟩ : handle = other ∧ s.events.length = i := by simpa using same
      subst last
      exact carries_last rfl
  received := by
    intro u other current here
    obtain ⟨positions, within, enough, knows⟩ := heard.received u other current here
    refine ⟨positions, within, enough, fun k member other i there => ?_⟩
    have below : k < s.drops.length := by
      have received := Finset.mem_range.mp (within member)
      have length_eq := heard.length_eq
      omega
    rw [Traced.send, List.getElem?_append_left below] at there
    exact (knows k member other i there).append
  leaving := by
    intro u waited seen here other earlier different
    obtain ⟨i, member, knows⟩ := heard.leaving u waited seen here other earlier different
    exact ⟨i, List.mem_append_left _ member, knows.append⟩

end Heard

/-- What one action does to a group. -/
inductive Moves (overflowChecks : Bool) (s : Traced Thread) :
    TracedAction Thread → Traced Thread → Prop where
  | act {action : Action Thread} {next : State Thread} (stays : ∀ handle, action ≠ .drop handle)
      (stepped : s.group.step overflowChecks action = some next) :
      Moves overflowChecks s (.act action) (s.follow overflowChecks action next)
  | drop {t : Thread} {handle : Nat} {next : State Thread}
      (stepped : s.group.step overflowChecks (.drop handle) = some next) :
      Moves overflowChecks s (.drop t handle) (s.send t handle next)

theorem moves_of_step {action : TracedAction Thread} {next : Traced Thread}
    (stepped : s.step overflowChecks action = some next) : Moves overflowChecks s action next := by
  cases action with
  | act action =>
      cases action with
      | drop handle => cases stepped
      | _ =>
          obtain ⟨after, moved, rfl⟩ := Option.map_eq_some_iff.mp stepped
          exact .act nofun moved
  | drop t handle =>
      obtain ⟨after, moved, rfl⟩ := Option.map_eq_some_iff.mp stepped
      exact .drop moved

end Traced

end DarkStd.WaitGroup
