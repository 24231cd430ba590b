import Mathlib.Logic.Relation

/-!
# What happens before what

An execution is the list of the operations on memory, oldest first, each with the
thread that performs it; loads see the last value stored. Two operations are in
order if one thread performs both, or if the later one acquires what the earlier
one has released: it reads at a location where since then nothing has been
written but by read-modify-write operations. Plain accesses that conflict and
are not in order are a data race.

The operations that happen before the next one of a thread are those that the
thread `Knows`. It learns of them where it acquires, from a location that
`Carries` them.
-/

namespace DarkStd.Semantics

universe u v

/-- How an atomic operation orders the others of its thread. -/
inductive MemoryOrder where
  | relaxed
  | acquire
  | release
  | acqRel
  | seqCst
deriving DecidableEq, Repr

/-- What comes later in the thread is ordered after it. -/
def MemoryOrder.acquires : MemoryOrder → Bool
  | .acquire | .acqRel | .seqCst => true
  | .relaxed | .release => false

/-- What comes earlier in the thread is ordered before it. -/
def MemoryOrder.releases : MemoryOrder → Bool
  | .release | .acqRel | .seqCst => true
  | .relaxed | .acquire => false

/-- An operation on memory: a plain one, or an atomic one with its ordering. -/
inductive Operation (Location : Type u) where
  | read (location : Location)
  | write (location : Location)
  | load (location : Location) (order : MemoryOrder)
  | store (location : Location) (order : MemoryOrder)
  | update (location : Location) (order : MemoryOrder)
deriving DecidableEq, Repr

namespace Operation

variable {Location : Type u}

def location : Operation Location → Location
  | .read location | .write location | .load location _ | .store location _
  | .update location _ => location

/-- It is not atomic. -/
def plain : Operation Location → Bool
  | .read _ | .write _ => true
  | .load .. | .store .. | .update .. => false

/-- It changes what is stored. -/
def writes : Operation Location → Bool
  | .write _ | .store .. | .update .. => true
  | .read _ | .load .. => false

/-- It acquires what has been released where it reads. -/
def acquires : Operation Location → Bool
  | .load _ order | .update _ order => order.acquires
  | .read _ | .write _ | .store .. => false

/-- It releases to those that read what it writes. -/
def releases : Operation Location → Bool
  | .store _ order | .update _ order => order.releases
  | .read _ | .write _ | .load .. => false

/-- What had been released there is not passed on. -/
def overwrites : Operation Location → Bool
  | .write _ | .store .. => true
  | .read _ | .load .. | .update .. => false

/-- At the same location, one of them writes and one of them is plain. -/
def Conflicts (left right : Operation Location) : Prop :=
  left.location = right.location ∧ (left.writes ∨ right.writes) ∧ (left.plain ∨ right.plain)

instance [DecidableEq Location] (left right : Operation Location) :
    Decidable (left.Conflicts right) :=
  inferInstanceAs (Decidable (_ ∧ (_ ∨ _) ∧ (_ ∨ _)))

end Operation

/-- An operation of a thread. -/
structure MemoryEvent (Thread : Type v) (Location : Type u) where
  thread : Thread
  operation : Operation Location
deriving DecidableEq, Repr

variable {Thread : Type v} {Location : Type u}

/-- One thread performs both. -/
def ProgramOrder (events : List (MemoryEvent Thread Location)) (i j : Nat) : Prop :=
  i < j ∧ ∃ left ∈ events[i]?, ∃ right ∈ events[j]?, left.thread = right.thread

/-- The later one acquires what the earlier one has released. -/
def Synchronizes (events : List (MemoryEvent Thread Location)) (i j : Nat) : Prop :=
  i < j ∧ ∃ left ∈ events[i]?, ∃ right ∈ events[j]?,
    left.operation.releases = true ∧ right.operation.acquires = true ∧
      left.operation.location = right.operation.location ∧
      ∀ k, i < k → k < j → ∀ between ∈ events[k]?,
        between.operation.location = left.operation.location →
          between.operation.overwrites = false

/-- The two ways to be in order at once. -/
def InOrder (events : List (MemoryEvent Thread Location)) (i j : Nat) : Prop :=
  ProgramOrder events i j ∨ Synchronizes events i j

/-- One operation happens before another one. -/
def HappensBefore (events : List (MemoryEvent Thread Location)) : Nat → Nat → Prop :=
  Relation.TransGen (InOrder events)

/-- Of two operations that conflict, one happens before the other. -/
def RaceFree (events : List (MemoryEvent Thread Location)) : Prop :=
  ∀ i j left right, i < j → events[i]? = some left → events[j]? = some right →
    left.operation.Conflicts right.operation → HappensBefore events i j

/-- The thread has performed the operation, or something that it happens before. -/
def Knows (events : List (MemoryEvent Thread Location)) (t : Thread) (i : Nat) : Prop :=
  ∃ j, ∃ event ∈ events[j]?, event.thread = t ∧ Relation.ReflTransGen (InOrder events) i j

/-- Who acquires at the location will know of the operation. -/
def Carries (events : List (MemoryEvent Thread Location)) (location : Location) (i : Nat) : Prop :=
  ∃ j, ∃ event ∈ events[j]?, event.operation.releases = true ∧
    event.operation.location = location ∧ Relation.ReflTransGen (InOrder events) i j ∧
      ∀ k, j < k → ∀ later ∈ events[k]?, later.operation.location = location →
        later.operation.overwrites = false

section Growth

variable {events : List (MemoryEvent Thread Location)} {event : MemoryEvent Thread Location}
variable {i j : Nat}
variable {t : Thread} {location : Location} {more : List (MemoryEvent Thread Location)}

theorem InOrder.lt (order : InOrder events i j) : i < j :=
  order.elim (·.1) (·.1)

theorem HappensBefore.lt (before : HappensBefore events i j) : i < j := by
  induction before with
  | single order => exact order.lt
  | tail _ order inductionHypothesis => exact Nat.lt_trans inductionHypothesis order.lt

/-- An operation stays where it is. -/
theorem getElem?_of_append {old : MemoryEvent Thread Location}
    (here : events[i]? = some old) : (events ++ more)[i]? = some old := by
  obtain ⟨below, -⟩ := List.getElem?_eq_some_iff.mp here
  rw [List.getElem?_append_left below, here]

/-- An operation is an old one, or one of the new ones. -/
theorem getElem?_append_cases {one : MemoryEvent Thread Location}
    (here : (events ++ more)[i]? = some one) :
    events[i]? = some one ∨ events.length ≤ i ∧ one ∈ more := by
  rw [List.getElem?_append] at here
  split at here
  case isTrue => exact .inl here
  case isFalse above => exact .inr ⟨Nat.le_of_not_lt above, List.mem_of_getElem? here⟩

/-- The last operation is the one that was added. -/
theorem getElem?_append_singleton {one : MemoryEvent Thread Location}
    (here : (events ++ [event])[i]? = some one) :
    events[i]? = some one ∨ i = events.length ∧ one = event := by
  obtain ⟨below, -⟩ := List.getElem?_eq_some_iff.mp here
  rw [List.length_append, List.length_singleton] at below
  rcases getElem?_append_cases here with old | ⟨above, new⟩
  · exact .inl old
  · exact .inr ⟨by omega, List.mem_singleton.mp new⟩

/-- What is in order stays so. -/
theorem InOrder.append (order : InOrder events i j) :
    InOrder (events ++ more) i j := by
  rcases order with ⟨lt, left, first, right, second, same⟩ |
    ⟨lt, left, first, right, second, releases, acquires, same, kept⟩
  · exact .inl ⟨lt, left, getElem?_of_append first, right, getElem?_of_append second, same⟩
  · refine .inr ⟨lt, left, getElem?_of_append first, right, getElem?_of_append second, releases,
      acquires, same, fun k after earlier between here => kept k after earlier between ?_⟩
    obtain ⟨below, -⟩ := List.getElem?_eq_some_iff.mp second
    rwa [List.getElem?_append_left (Nat.lt_trans earlier below)] at here

theorem HappensBefore.append (before : HappensBefore events i j) :
    HappensBefore (events ++ more) i j :=
  Relation.TransGen.mono (fun _ _ => InOrder.append) _ _ before

theorem reflTransGen_append
    (before : Relation.ReflTransGen (InOrder events) i j) :
    Relation.ReflTransGen (InOrder (events ++ more)) i j :=
  Relation.ReflTransGen.mono (fun _ _ => InOrder.append) _ _ before

/-- A thread forgets nothing. -/
theorem Knows.append (knows : Knows events t i) :
    Knows (events ++ more) t i := by
  obtain ⟨j, old, here, same, before⟩ := knows
  exact ⟨j, old, getElem?_of_append here, same, reflTransGen_append before⟩

/-- A thread knows what it does. -/
theorem knows_last : Knows (events ++ [event]) event.thread events.length :=
  ⟨events.length, event, by simp, rfl, .refl⟩

/-- What a thread knows happens before what it does next. -/
theorem Knows.happensBefore (knows : Knows events event.thread i) :
    HappensBefore (events ++ [event]) i events.length := by
  obtain ⟨j, old, here, same, before⟩ := knows
  obtain ⟨below, -⟩ := List.getElem?_eq_some_iff.mp here
  refine .tail' (reflTransGen_append before) (.inl ⟨below, old, getElem?_of_append here, event, ?_,
    same⟩)
  simp

/-- A location passes on what it carries until it is overwritten. -/
theorem Carries.append (carries : Carries events location i)
    (kept : ∀ one ∈ more, one.operation.location = location → one.operation.overwrites = false) :
    Carries (events ++ more) location i := by
  obtain ⟨j, old, here, releases, same, before, later⟩ := carries
  refine ⟨j, old, getElem?_of_append here, releases, same, reflTransGen_append before, ?_⟩
  intro k after next there place
  rcases getElem?_append_cases there with there | ⟨-, new⟩
  · exact later k after next there place
  · exact kept next new place

/-- Who acquires at a location knows what it carries. -/
theorem Carries.knows {operation : Operation Location}
    (carries : Carries events operation.location i) (acquires : operation.acquires = true) :
    Knows (events ++ [⟨t, operation⟩]) t i := by
  obtain ⟨j, old, here, releases, same, before, later⟩ := carries
  obtain ⟨below, -⟩ := List.getElem?_eq_some_iff.mp here
  refine ⟨events.length, ⟨t, operation⟩, by simp, rfl, (reflTransGen_append before).tail (.inr ?_)⟩
  refine ⟨below, old, getElem?_of_append here, ⟨t, operation⟩, by simp, releases, acquires, same,
    ?_⟩
  intro k after earlier between there place
  rw [List.getElem?_append_left earlier] at there
  exact later k after between there (place.trans same)

/-- Nothing comes after the last operation. -/
theorem not_after_last {k : Nat} (after : events.length < k) : (events ++ [event])[k]? = none :=
  List.getElem?_eq_none (by simpa using Nat.succ_le_of_lt after)

/-- A location carries what is released there. -/
theorem carries_last (releases : event.operation.releases = true) :
    Carries (events ++ [event]) event.operation.location events.length := by
  refine ⟨events.length, event, by simp, releases, rfl, .refl, fun k after next there => ?_⟩
  cases (not_after_last after).symm.trans there

/-- A location carries what is known to the thread that releases there. -/
theorem Knows.carries {operation : Operation Location} (knows : Knows events t i)
    (releases : operation.releases = true) :
    Carries (events ++ [⟨t, operation⟩]) operation.location i := by
  have before : HappensBefore (events ++ [⟨t, operation⟩]) i events.length :=
    Knows.happensBefore knows
  refine ⟨events.length, ⟨t, operation⟩, by simp, releases, rfl, before.to_reflTransGen, ?_⟩
  intro k after next there
  cases (not_after_last after).symm.trans there

/-- A new operation adds no race if its thread knows of all that conflict with it. -/
theorem RaceFree.append (raceFree : RaceFree events)
    (known : ∀ i old, events[i]? = some old → old.operation.Conflicts event.operation →
      Knows events event.thread i) : RaceFree (events ++ [event]) := by
  intro i j left right lt first second conflicts
  rcases getElem?_append_singleton second with second | ⟨rfl, rfl⟩
  · obtain ⟨below, -⟩ := List.getElem?_eq_some_iff.mp second
    rw [List.getElem?_append_left (Nat.lt_trans lt below)] at first
    exact (raceFree i j left right lt first second conflicts).append
  · rw [List.getElem?_append_left lt] at first
    exact (known i left first conflicts).happensBefore

/-- Nothing leads out of a set of operations that is closed. -/
theorem HappensBefore.closed {within : Nat → Prop} (before : HappensBefore events i j)
    (closed : ∀ k l, within k → InOrder events k l → within l) (start : within i) : within j := by
  induction before with
  | single order => exact closed _ _ start order
  | tail _ order inductionHypothesis => exact closed _ _ inductionHypothesis order

/-- Operations do not happen before later ones of other threads that acquire nothing
from them. -/
theorem not_happensBefore_of_apart {before within after : List (MemoryEvent Thread Location)}
    (threads : ∀ left ∈ within, ∀ right ∈ after, left.thread ≠ right.thread)
    (apart : ∀ left ∈ within, ∀ right ∈ after, left.operation.releases = true →
      right.operation.acquires = true → left.operation.location ≠ right.operation.location)
    (inside : before.length ≤ i ∧ i < before.length + within.length)
    (outside : before.length + within.length ≤ j) :
    ¬ HappensBefore (before ++ within ++ after) i j := by
  have closed (k l : Nat) (position : before.length ≤ k ∧ k < before.length + within.length)
      (order : InOrder (before ++ within ++ after) k l) :
      before.length ≤ l ∧ l < before.length + within.length := by
    have later := order.lt
    refine ⟨by omega, Nat.lt_of_not_le fun past => ?_⟩
    have first {left : MemoryEvent Thread Location}
        (here : (before ++ within ++ after)[k]? = some left) : left ∈ within := by
      rw [List.getElem?_append_left (by rw [List.length_append]; exact position.2),
        List.getElem?_append_right position.1] at here
      exact List.mem_of_getElem? here
    have second {right : MemoryEvent Thread Location}
        (here : (before ++ within ++ after)[l]? = some right) : right ∈ after := by
      rw [List.getElem?_append_right (by rw [List.length_append]; exact past)] at here
      exact List.mem_of_getElem? here
    rcases order with ⟨-, left, old, right, new, same⟩ |
      ⟨-, left, old, right, new, releases, acquires, same, -⟩
    · exact threads left (first old) right (second new) same
    · exact apart left (first old) right (second new) releases acquires same
  intro happens
  have reached := happens.closed closed inside
  omega

end Growth

end DarkStd.Semantics
