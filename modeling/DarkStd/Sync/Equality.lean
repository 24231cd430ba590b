import DarkStd.Sync.Containers
import DarkStd.Sync.Sections

/-!
# Comparing vectors

`SyncVec::eq` opens a read section on `self`, then another on `other` while it
holds the first, compares the two slices element by element, and drops the
guards, the one of `other` first. Here any number of threads do so on any
number of vectors, next to whatever else they call: a comparison adds no atomic
operation of its own but decides which method its thread calls next.
-/

namespace DarkStd.Sync

open DarkStd.Semantics

/-- Where a thread is in `eq`. `left` and `right` are the ids of the guards of
`self` and `other`. -/
inductive Comparison (Index V : Type) where
  /-- In no comparison. -/
  | idle
  /-- `self.dirty_ref()` -/
  | first (self other : Index)
  /-- It has returned. -/
  | held (self other : Index) (left : Nat)
  /-- `other.dirty_ref()` -/
  | second (self other : Index) (left : Nat)
  /-- `self.len() != other.len()`, with `self.len()` read or not. -/
  | lengths (self other : Index) (left right : Nat) (length : Option Nat)
  /-- `self[next] != other[next]`, with `self[next]` read or not. -/
  | elements (self other : Index) (left right : Nat) (length next : Nat) (element : Option V)
  /-- The result is known; the guard of `other` is dropped. -/
  | decided (self other : Index) (left right : Nat) (result : Bool)
  /-- The guard of `self` is dropped, and the result returned. -/
  | dropped (self other : Index) (left : Nat) (result : Bool)
deriving DecidableEq, Repr

/-- What may happen to the vectors. -/
inductive VecAction (Index Thread V : Type) where
  /-- An action on one of them, of a comparison or not. -/
  | sync (x : Index) (action : Action Thread)
  /-- Call `self.eq(other)`. -/
  | compare (thread : Thread) (self other : Index)
  /-- A comparison reads the length or an element of a slice. -/
  | visit (thread : Thread)
  /-- A content is changed in a write section. -/
  | change (thread : Thread) (x : Index) (change : List V → List V)

/-- Any number of vectors, and what each thread is comparing. -/
structure Vecs (Index Thread V : Type) (w : Nat) where
  stores : Index → State Thread w
  contents : Index → List V
  phases : Thread → Comparison Index V

namespace Comparison

variable {Index Thread V : Type}

/-- The comparison reads on in the slices. It goes past no end. -/
def visit (eq : V → V → Bool) (contents : Index → List V) :
    Comparison Index V → Option (Comparison Index V)
  | .lengths self other left right none =>
      some (.lengths self other left right (some (contents self).length))
  | .lengths self other left right (some length) =>
      if length = (contents other).length then
        some (.elements self other left right length 0 none)
      else some (.decided self other left right false)
  | .elements self other left right length next none =>
      if next < length then
        (contents self)[next]?.map fun v =>
          .elements self other left right length next (some v)
      else some (.decided self other left right true)
  | .elements self other left right length next (some v) =>
      (contents other)[next]?.map fun u =>
        if eq v u then .elements self other left right length (next + 1) none
        else .decided self other left right false
  | .idle | .first .. | .held .. | .second .. | .decided .. | .dropped .. => none

/-- Where a comparison is after an action of its thread on the vector `x`, if it
makes or allows that action. `opened` is the call whose section the thread has
opened there. Outside a comparison everything is allowed. -/
def follow [DecidableEq Index] (x : Index) (opened : Option Nat) :
    Comparison Index V → Action Thread → Option (Comparison Index V)
  | .idle, _ => some .idle
  | .first self other, .leaveRead _ (some .container) =>
      if x = self then opened.map (.held self other) else none
  | .held self other left, .read _ .dirtyRef =>
      if x = other then some (.second self other left) else none
  | .second self other left, .leaveRead _ (some .container) =>
      if x = other then opened.map (.lengths self other left · none) else none
  | .decided self other left right result, .dropRead _ id =>
      if x = other ∧ id = right then some (.dropped self other left result) else none
  | .dropped self _ left _, .dropRead _ id =>
      if x = self ∧ id = left then some .idle else none
  | phase, .step _ => some phase
  | _, _ => none

end Comparison

/-- The body of a write method runs, or the thread holds what one returned. -/
def State.Writes {Thread : Type} {w : Nat} (s : State Thread w) (t : Thread) : Prop :=
  (s.pc t).isWriting = true ∨ ∃ guard ∈ s.writeGuards, guard.holder = t

instance {Thread : Type} [DecidableEq Thread] {w : Nat} (s : State Thread w) (t : Thread) :
    Decidable (s.Writes t) :=
  inferInstanceAs (Decidable (_ = true ∨ ∃ guard ∈ s.writeGuards, _))

namespace Vecs

variable {Index Thread V : Type} {w : Nat}

/-- Vectors just constructed with the given contents. -/
def new (Thread : Type) (w : Nat) (contents : Index → List V) : Vecs Index Thread V w where
  stores _ := .new Thread w
  contents := contents
  phases _ := .idle

/-- What has happened to one vector. -/
def put [DecidableEq Index] (s : Vecs Index Thread V w) (x : Index) (moved : State Thread w) :
    Vecs Index Thread V w :=
  { s with stores := Function.update s.stores x moved }

/-- Move one thread to another point of its comparison. -/
def goto [DecidableEq Thread] (s : Vecs Index Thread V w) (t : Thread)
    (phase : Comparison Index V) : Vecs Index Thread V w :=
  { s with phases := Function.update s.phases t phase }

variable [DecidableEq Index] [DecidableEq Thread]

/-- One action. -/
def step (eq : V → V → Bool) (s : Vecs Index Thread V w) :
    VecAction Index Thread V → Option (Vecs Index Thread V w)
  | .sync x action =>
      let t := action.thread
      ((s.phases t).follow x ((s.stores x).pc t).opened action).bind fun phase =>
        ((s.stores x).step .vec action).map fun moved => (s.put x moved).goto t phase
  | .compare t self other =>
      match s.phases t with
      | .idle =>
          ((s.stores self).step .vec (.read t .dirtyRef)).map fun moved =>
            (s.put self moved).goto t (.first self other)
      | _ => none
  | .visit t => ((s.phases t).visit eq s.contents).map (s.goto t)
  | .change t x change =>
      if (s.stores x).Writes t then
        some { s with contents := Function.update s.contents x (change (s.contents x)) }
      else none

end Vecs

namespace VecAction

variable {Index Thread V : Type}

/-- The action on one container that an action is. -/
def below : VecAction Index Thread V → Option (Index × Action Thread)
  | .sync x action => some (x, action)
  | .compare t self _ => some (self, .read t .dirtyRef)
  | .visit _ | .change .. => none

/-- The actions on one of the vectors. -/
def on [DecidableEq Index] (x : Index) (action : VecAction Index Thread V) :
    Option (Action Thread) :=
  action.below.bind fun (y, below) => if y = x then some below else none

/-- A thread starts a call or a drop only between its own calls, on whatever vector. -/
def AtOnePlace {w : Nat} (s : Vecs Index Thread V w) (action : VecAction Index Thread V) : Prop :=
  ∀ below ∈ action.below, Sync.AtOnePlace s.stores below

instance {w : Nat} [Fintype Index] (s : Vecs Index Thread V w)
    (action : VecAction Index Thread V) : Decidable (action.AtOnePlace s) :=
  inferInstanceAs (Decidable (∀ below ∈ action.below, Sync.AtOnePlace s.stores below))

end VecAction

/-- Vectors that any number of threads use and compare. -/
def vecs {Index V : Type} [DecidableEq Index] (Thread : Type) [DecidableEq Thread] (w : Nat)
    (eq : V → V → Bool) (contents : Index → List V) :
    System (Vecs Index Thread V w) (VecAction Index Thread V) :=
  (System.ofFunction (.new Thread w contents) (Vecs.step eq)).restrict VecAction.AtOnePlace

namespace Comparison

variable {Index V : Type}

/-- The guards a comparison holds: of which vector, and their ids. -/
def guards : Comparison Index V → List (Index × Nat)
  | .idle | .first .. => []
  | .held self _ left | .second self _ left | .dropped self _ left _ => [(self, left)]
  | .lengths self other left right _ | .elements self other left right _ _ _
  | .decided self other left right _ => [(self, left), (other, right)]

/-- What is compared. -/
def operands : Comparison Index V → Option (Index × Index)
  | .idle => none
  | .first self other | .held self other _ | .second self other _ | .lengths self other ..
  | .elements self other .. | .decided self other .. | .dropped self other .. => some (self, other)

variable {eq : V → V → Bool} {contents : Index → List V} {phase next : Comparison Index V}

theorem operands_eq_none : phase.operands = none ↔ phase = .idle := by
  cases phase <;> simp [operands]

/-- What reading on in the slices does. -/
inductive Visits (eq : V → V → Bool) (contents : Index → List V) :
    Comparison Index V → Comparison Index V → Prop where
  | length {self other left right} :
      Visits eq contents (.lengths self other left right none)
        (.lengths self other left right (some (contents self).length))
  | sameLength {self other left right length} (same : length = (contents other).length) :
      Visits eq contents (.lengths self other left right (some length))
        (.elements self other left right length 0 none)
  | otherLength {self other left right length} (different : length ≠ (contents other).length) :
      Visits eq contents (.lengths self other left right (some length))
        (.decided self other left right false)
  | element {self other left right length next v} (below : next < length)
      (loaded : (contents self)[next]? = some v) :
      Visits eq contents (.elements self other left right length next none)
        (.elements self other left right length next (some v))
  | finish {self other left right length next} (past : length ≤ next) :
      Visits eq contents (.elements self other left right length next none)
        (.decided self other left right true)
  | sameElement {self other left right length next v u}
      (loaded : (contents other)[next]? = some u) (same : eq v u = true) :
      Visits eq contents (.elements self other left right length next (some v))
        (.elements self other left right length (next + 1) none)
  | otherElement {self other left right length next v u}
      (loaded : (contents other)[next]? = some u) (different : eq v u = false) :
      Visits eq contents (.elements self other left right length next (some v))
        (.decided self other left right false)

theorem visits_of_visit (visited : phase.visit eq contents = some next) :
    Visits eq contents phase next := by
  unfold visit at visited
  split at visited
  case h_1 => exact Option.some.inj visited ▸ .length
  case h_2 =>
    split at visited
    case isTrue same => exact Option.some.inj visited ▸ .sameLength same
    case isFalse different => exact Option.some.inj visited ▸ .otherLength different
  case h_3 =>
    split at visited
    case isTrue below =>
      obtain ⟨v, loaded, rfl⟩ := Option.map_eq_some_iff.mp visited
      exact .element below loaded
    case isFalse past => exact Option.some.inj visited ▸ .finish (Nat.not_lt.mp past)
  case h_4 =>
    obtain ⟨u, loaded, rfl⟩ := Option.map_eq_some_iff.mp visited
    split
    case isTrue same => exact .sameElement loaded same
    case isFalse different => exact .otherElement loaded (Bool.eq_false_iff.mpr different)
  all_goals cases visited

/-- Reading on takes and drops no guard. -/
theorem Visits.guards_eq (visits : Visits eq contents phase next) :
    next.guards = phase.guards := by
  cases visits <;> rfl

theorem Visits.operands_eq (visits : Visits eq contents phase next) :
    next.operands = phase.operands := by
  cases visits <;> rfl

end Comparison

namespace Vecs

variable {Index Thread V : Type} {w : Nat}

section Fields

variable (s : Vecs Index Thread V w) (x y : Index) (moved : State Thread w) (t u : Thread)
variable (phase : Comparison Index V)

section

variable [DecidableEq Index]

@[simp] theorem put_stores_self : (s.put x moved).stores x = moved := Function.update_self ..
@[simp] theorem put_contents : (s.put x moved).contents = s.contents := rfl
@[simp] theorem put_phases : (s.put x moved).phases = s.phases := rfl

theorem put_stores_of_ne (different : y ≠ x) : (s.put x moved).stores y = s.stores y :=
  Function.update_of_ne different ..

end

variable [DecidableEq Thread]

@[simp] theorem goto_stores : (s.goto t phase).stores = s.stores := rfl
@[simp] theorem goto_contents : (s.goto t phase).contents = s.contents := rfl
@[simp] theorem goto_phases_self : (s.goto t phase).phases t = phase := Function.update_self ..

theorem goto_phases_of_ne (different : u ≠ t) : (s.goto t phase).phases u = s.phases u :=
  Function.update_of_ne different ..

theorem goto_self : s.goto t (s.phases t) = s := by
  rw [goto, Function.update_eq_self]

end Fields

variable [DecidableEq Index] [DecidableEq Thread]
variable {eq : V → V → Bool} {s next : Vecs Index Thread V w}
variable {action : VecAction Index Thread V}

/-- The effects of one step, by what happens to the comparison of its thread. -/
inductive Moves (eq : V → V → Bool) (s : Vecs Index Thread V w) :
    VecAction Index Thread V → Vecs Index Thread V w → Prop where
  /-- Nothing: the thread is in none, or goes on in `begin_read`. -/
  | sync {x action moved}
      (allowed : s.phases action.thread = .idle ∨ action = .step action.thread)
      (move : State.Moves .vec (s.stores x) action moved) :
      Moves eq s (.sync x action) (s.put x moved)
  | compare {t self other moved} (here : s.phases t = .idle)
      (move : State.Moves .vec (s.stores self) (.read t .dirtyRef) moved) :
      Moves eq s (.compare t self other) ((s.put self moved).goto t (.first self other))
  | held {t self other left moved} (here : s.phases t = .first self other)
      (opened : ((s.stores self).pc t).opened = some left)
      (move : State.Moves .vec (s.stores self) (.leaveRead t (some .container)) moved) :
      Moves eq s (.sync self (.leaveRead t (some .container)))
        ((s.put self moved).goto t (.held self other left))
  | second {t self other left moved} (here : s.phases t = .held self other left)
      (move : State.Moves .vec (s.stores other) (.read t .dirtyRef) moved) :
      Moves eq s (.sync other (.read t .dirtyRef))
        ((s.put other moved).goto t (.second self other left))
  | lengths {t self other left right moved} (here : s.phases t = .second self other left)
      (opened : ((s.stores other).pc t).opened = some right)
      (move : State.Moves .vec (s.stores other) (.leaveRead t (some .container)) moved) :
      Moves eq s (.sync other (.leaveRead t (some .container)))
        ((s.put other moved).goto t (.lengths self other left right none))
  | visit {t phase} (visits : Comparison.Visits eq s.contents (s.phases t) phase) :
      Moves eq s (.visit t) (s.goto t phase)
  | dropped {t self other left right result moved}
      (here : s.phases t = .decided self other left right result)
      (move : State.Moves .vec (s.stores other) (.dropRead t right) moved) :
      Moves eq s (.sync other (.dropRead t right))
        ((s.put other moved).goto t (.dropped self other left result))
  | returned {t self other left result moved} (here : s.phases t = .dropped self other left result)
      (move : State.Moves .vec (s.stores self) (.dropRead t left) moved) :
      Moves eq s (.sync self (.dropRead t left)) ((s.put self moved).goto t .idle)
  | change {t x change} (writes : (s.stores x).Writes t) :
      Moves eq s (.change t x change)
        { s with contents := Function.update s.contents x (change (s.contents x)) }

/-- Every step has one of the listed effects. -/
theorem moves_of_step (stepped : s.step eq action = some next) : Moves eq s action next := by
  cases action with
  | sync x action =>
      obtain ⟨phase, followed, stepped⟩ := Option.bind_eq_some_iff.mp stepped
      obtain ⟨moved, below, rfl⟩ := Option.map_eq_some_iff.mp stepped
      have move := State.moves_of_step below
      unfold Comparison.follow at followed
      split at followed
      case h_1 here =>
        cases followed
        rw [← here, ← put_phases s x moved, goto_self]
        exact .sync (.inl here) move
      case h_2 self other here =>
        obtain ⟨rfl, followed⟩ := Option.ite_none_right_eq_some.mp followed
        obtain ⟨left, opened, rfl⟩ := Option.map_eq_some_iff.mp followed
        exact .held here opened move
      case h_3 self other left here =>
        obtain ⟨rfl, ⟨⟩⟩ := Option.ite_none_right_eq_some.mp followed
        exact .second here move
      case h_4 self other left here =>
        obtain ⟨rfl, followed⟩ := Option.ite_none_right_eq_some.mp followed
        obtain ⟨right, opened, rfl⟩ := Option.map_eq_some_iff.mp followed
        exact .lengths here opened move
      case h_5 self other left right result id here =>
        obtain ⟨⟨rfl, rfl⟩, ⟨⟩⟩ := Option.ite_none_right_eq_some.mp followed
        exact .dropped here move
      case h_6 self other left result id here =>
        obtain ⟨⟨rfl, rfl⟩, ⟨⟩⟩ := Option.ite_none_right_eq_some.mp followed
        exact .returned here move
      case h_7 t _ _ _ _ _ _ =>
        cases followed
        rw [← put_phases s x moved, goto_self]
        exact .sync (.inr rfl) move
      case h_8 => cases followed
  | compare t self other =>
      simp only [step] at stepped
      split at stepped
      case h_1 here =>
        obtain ⟨moved, below, rfl⟩ := Option.map_eq_some_iff.mp stepped
        exact .compare here (State.moves_of_step below)
      case h_2 => cases stepped
  | visit t =>
      obtain ⟨phase, visited, rfl⟩ := Option.map_eq_some_iff.mp stepped
      exact .visit (Comparison.visits_of_visit visited)
  | change t x change =>
      obtain ⟨writes, ⟨⟩⟩ := Option.ite_none_right_eq_some.mp stepped
      exact .change writes

/-- What a step does to the comparison of its thread. -/
inductive Turns (eq : V → V → Bool) (s : Vecs Index Thread V w) (t : Thread) :
    VecAction Index Thread V → Comparison Index V → Prop where
  | compare {self other} (here : s.phases t = .idle) :
      Turns eq s t (.compare t self other) (.first self other)
  | held {self other left} (here : s.phases t = .first self other)
      (opened : ((s.stores self).pc t).opened = some left) :
      Turns eq s t (.sync self (.leaveRead t (some .container))) (.held self other left)
  | second {self other left} (here : s.phases t = .held self other left) :
      Turns eq s t (.sync other (.read t .dirtyRef)) (.second self other left)
  | lengths {self other left right} (here : s.phases t = .second self other left)
      (opened : ((s.stores other).pc t).opened = some right) :
      Turns eq s t (.sync other (.leaveRead t (some .container)))
        (.lengths self other left right none)
  | visit {phase} (visits : Comparison.Visits eq s.contents (s.phases t) phase) :
      Turns eq s t (.visit t) phase
  | dropped {self other left right result}
      (here : s.phases t = .decided self other left right result) :
      Turns eq s t (.sync other (.dropRead t right)) (.dropped self other left result)
  | returned {self other left result} (here : s.phases t = .dropped self other left result) :
      Turns eq s t (.sync self (.dropRead t left)) .idle

/-- A thread stays where it is in its comparison and does nothing but go on in
`begin_read`, or stays outside of any, or it takes a step of the comparison. -/
theorem Moves.turns (move : Moves eq s action next) (t : Thread) :
    (next.phases t = s.phases t ∧
      ((s.phases t = .idle ∧ ∀ self other, action ≠ .compare t self other) ∨
        ∀ x below, action.below = some (x, below) → below.thread = t → below = .step t)) ∨
      Turns eq s t action (next.phases t) := by
  have turn {u : Thread} {phase : Comparison Index V} {before : Vecs Index Thread V w}
      (same : before.phases = s.phases)
      (acts : ∀ x below, action.below = some (x, below) → below.thread = u)
      (mine : t = u → Turns eq s t action phase) :
      ((before.goto u phase).phases t = s.phases t ∧
        ((s.phases t = .idle ∧ ∀ self other, action ≠ .compare t self other) ∨
          ∀ x below, action.below = some (x, below) → below.thread = t → below = .step t)) ∨
        Turns eq s t action ((before.goto u phase).phases t) := by
    by_cases actor : t = u
    · subst actor
      rw [goto_phases_self]
      exact .inr (mine rfl)
    · rw [goto_phases_of_ne _ _ _ _ actor, same]
      refine .inl ⟨rfl, .inr fun x below on mine => ?_⟩
      exact absurd (mine.symm.trans (acts x below on)) actor
  cases move with
  | @sync x action _ allowed =>
      refine .inl ⟨rfl, ?_⟩
      by_cases idle : s.phases t = .idle
      · exact .inl ⟨idle, by simp⟩
      · right
        rintro y below ⟨⟩ rfl
        rcases allowed with idle' | step
        · exact absurd idle' idle
        · exact step
  | change => exact .inl ⟨rfl, .inr fun _ _ on => by cases on⟩
  | compare here => exact turn rfl (by rintro _ _ ⟨⟩; rfl) (by rintro rfl; exact .compare here)
  | held here opened =>
      exact turn rfl (by rintro _ _ ⟨⟩; rfl) (by rintro rfl; exact .held here opened)
  | second here => exact turn rfl (by rintro _ _ ⟨⟩; rfl) (by rintro rfl; exact .second here)
  | lengths here opened =>
      exact turn rfl (by rintro _ _ ⟨⟩; rfl) (by rintro rfl; exact .lengths here opened)
  | visit visits => exact turn rfl (fun _ _ on => by cases on) (by rintro rfl; exact .visit visits)
  | dropped here => exact turn rfl (by rintro _ _ ⟨⟩; rfl) (by rintro rfl; exact .dropped here)
  | returned here => exact turn rfl (by rintro _ _ ⟨⟩; rfl) (by rintro rfl; exact .returned here)

/-- A step is a step of one vector, or of none. -/
theorem below_of_step (stepped : s.step eq action = some next) :
    (action.below = none ∧ next.stores = s.stores) ∨
      ∃ x below moved, action.below = some (x, below) ∧
        (s.stores x).step .vec below = some moved ∧
        next.stores = Function.update s.stores x moved := by
  cases action with
  | sync x action =>
      obtain ⟨phase, -, stepped⟩ := Option.bind_eq_some_iff.mp stepped
      obtain ⟨moved, below, rfl⟩ := Option.map_eq_some_iff.mp stepped
      exact .inr ⟨x, action, moved, rfl, below, rfl⟩
  | compare t self other =>
      simp only [step] at stepped
      split at stepped
      case h_1 =>
        obtain ⟨moved, below, rfl⟩ := Option.map_eq_some_iff.mp stepped
        exact .inr ⟨self, _, moved, rfl, below, rfl⟩
      case h_2 => cases stepped
  | visit t =>
      obtain ⟨phase, -, rfl⟩ := Option.map_eq_some_iff.mp stepped
      exact .inl ⟨rfl, rfl⟩
  | change t x change =>
      obtain ⟨-, ⟨⟩⟩ := Option.ite_none_right_eq_some.mp stepped
      exact .inl ⟨rfl, rfl⟩

/-- What a step is for one vector. -/
theorem moves_at (stepped : s.step eq action = some next) (x : Index) :
    (next.stores x = s.stores x ∧ ∀ below, action.below ≠ some (x, below)) ∨
      ∃ below, action.below = some (x, below) ∧
        State.Moves .vec (s.stores x) below (next.stores x) := by
  rcases below_of_step stepped with ⟨none, same⟩ | ⟨y, below, moved, acts, taken, same⟩
  · exact .inl ⟨by rw [same], by simp [none]⟩
  · by_cases there : x = y
    · subst there
      rw [same, Function.update_self]
      exact .inr ⟨below, acts, State.moves_of_step taken⟩
    · refine .inl ⟨by rw [same, Function.update_of_ne there], fun below' acts' => ?_⟩
      exact there (Prod.mk.inj (Option.some.inj (acts'.symm.trans acts))).1

theorem move_of_below (stepped : s.step eq action = some next) {x : Index} {below : Action Thread}
    (acts : action.below = some (x, below)) :
    State.Moves .vec (s.stores x) below (next.stores x) := by
  rcases moves_at stepped x with ⟨-, none⟩ | ⟨below', acts', move⟩
  · exact absurd acts (none below)
  · obtain ⟨-, rfl⟩ := Prod.mk.inj (Option.some.inj (acts.symm.trans acts'))
    exact move

variable {contents : Index → List V} {actions : List (VecAction Index Thread V)}

/-- A run of the vectors is a run of their protocols side by side. -/
theorem containers_steps (steps : (vecs Thread w eq contents).Steps s actions next) :
    (containers (fun _ => .vec) Thread w).Steps s.stores (actions.filterMap VecAction.below)
      next.stores := by
  induction steps with
  | refl => exact .refl
  | step _ move inductionHypothesis =>
      obtain ⟨atOnePlace, stepped⟩ := move
      rw [List.filterMap_append]
      rcases below_of_step stepped with ⟨none, same⟩ | ⟨x, below, moved, some, taken, same⟩
      · simpa [none, same] using inductionHypothesis
      · have one : (containers (fun _ => .vec) Thread w).Step _ (x, below) _ :=
          ⟨atOnePlace _ some, moved, taken, same⟩
        simpa [some] using inductionHypothesis.step one

/-- A run of the vectors is a run of each of them. -/
theorem container_steps (steps : (vecs Thread w eq contents).Steps s actions next) (x : Index) :
    (container .vec Thread w).Steps (s.stores x) (actions.filterMap (VecAction.on x))
      (next.stores x) := by
  have run := (containers_steps steps).of_restrict.component x
  rwa [List.filterMap_filterMap] at run

theorem container_reachable (reachable : (vecs Thread w eq contents).Reachable s) (x : Index) :
    (container .vec Thread w).Reachable (s.stores x) := by
  obtain ⟨first, actions, start, steps⟩ := reachable.exists_steps
  cases start
  exact (container_steps steps x).reachable (.initial rfl)

end Vecs

namespace State

variable {Thread : Type} [DecidableEq Thread] {w : Nat} {kind : Kind}
variable {s next : State Thread w} {action : Action Thread}

/-- A `ReadMapGuard` stays alive until its holder drops it. -/
theorem Moves.mem_of_container (move : Moves kind s action next) {guard : ReadGuard Thread}
    (live : guard ∈ s.readGuards) (notSent : guard.kind = .container)
    (kept : action ≠ .dropRead guard.holder guard.id) : guard ∈ next.readGuards := by
  cases move with
  | returnRead => exact List.mem_cons_of_mem _ live
  | @dropRead t dropped idle liveDropped held =>
      refine (List.mem_erase_of_ne ?_).mpr live
      rintro rfl
      exact kept (by rw [held])
  | @send receiver sent idle liveSent iterator =>
      refine List.mem_cons_of_mem _ ((List.mem_erase_of_ne ?_).mpr live)
      rintro rfl
      cases iterator.symm.trans notSent
  | _ => exact live

/-- A returning `dirty_ref` hands out a guard under its id. -/
theorem Moves.exists_returned {t : Thread} {id : Nat} {guard : ReadKind}
    (move : Moves kind s (.leaveRead t (some guard)) next) (opened : (s.pc t).opened = some id) :
    ∃ count, (∃ call, s.pc t = .reading call count ∧ call.id = id) ∧
      next.readGuards = ⟨id, guard, count, t⟩ :: s.readGuards := by
  cases move with
  | @returnRead t call count guard here =>
      rw [here] at opened
      obtain rfl := Option.some.inj opened
      exact ⟨count, ⟨call, here, rfl⟩, rfl⟩

end State

namespace Vecs

variable {Index Thread V : Type} [DecidableEq Index] [DecidableEq Thread] {w : Nat}
variable {eq : V → V → Bool} {s next : Vecs Index Thread V w}
variable {action : VecAction Index Thread V}

/-- The guard that a comparison of the thread holds on the vector. -/
def Holds (s : Vecs Index Thread V w) (t : Thread) (x : Index) (id : Nat) : Prop :=
  ∃ guard ∈ (s.stores x).readGuards, guard.id = id ∧ guard.holder = t ∧ guard.kind = .container

/-- The guards a comparison goes by are alive, and they are two. -/
structure Held (s : Vecs Index Thread V w) : Prop where
  live : ∀ t x id, (x, id) ∈ (s.phases t).guards → s.Holds t x id
  nodup : ∀ t, (s.phases t).guards.Nodup

omit [DecidableEq Index] [DecidableEq Thread] in
theorem Held.new (contents : Index → List V) : (Vecs.new Thread w contents).Held where
  live _ _ _ member := by cases member
  nodup _ := .nil

/-- A guard stays until its comparison drops it. -/
theorem Holds.kept {t : Thread} {x : Index} {id : Nat} (holds : s.Holds t x id)
    (stepped : s.step eq action = some next) (kept : action ≠ .sync x (.dropRead t id)) :
    next.Holds t x id := by
  obtain ⟨guard, live, rfl, rfl, notSent⟩ := holds
  refine ⟨guard, ?_, rfl, rfl, notSent⟩
  rcases moves_at stepped x with ⟨same, -⟩ | ⟨below, acts, move⟩
  · exact same ▸ live
  · refine move.mem_of_container live notSent ?_
    rintro rfl
    cases action with
    | sync y action => exact kept (by cases acts; rfl)
    | _ => cases acts

/-- A comparison keeps a guard, or its `dirty_ref` has just returned it. -/
theorem Moves.guards_of_next (move : Moves eq s action next) (held : s.Held) {t : Thread}
    {x : Index} {id : Nat} (member : (x, id) ∈ (next.phases t).guards) :
    ((x, id) ∈ (s.phases t).guards ∧ action ≠ .sync x (.dropRead t id)) ∨
      (action = .sync x (.leaveRead t (some .container)) ∧
        ((s.stores x).pc t).opened = some id) := by
  rcases move.turns t with ⟨same, keeps⟩ | turn
  · rw [same] at member
    refine .inl ⟨member, ?_⟩
    rcases keeps with ⟨idle, -⟩ | keeps
    · rw [idle] at member
      cases member
    · rintro rfl
      cases keeps x _ rfl rfl
  · generalize next.phases t = phase at turn member
    cases turn with
    | compare | returned => cases member
    | held here opened =>
        obtain ⟨rfl, rfl⟩ := Prod.mk.inj (List.mem_singleton.mp member)
        exact .inr ⟨rfl, opened⟩
    | second here => exact .inl ⟨here ▸ member, by simp⟩
    | lengths here opened =>
        rcases List.mem_cons.mp member with same | member
        · exact .inl ⟨here ▸ List.mem_singleton.mpr same, by simp⟩
        · obtain ⟨rfl, rfl⟩ := Prod.mk.inj (List.mem_singleton.mp member)
          exact .inr ⟨rfl, opened⟩
    | visit visits =>
        rw [visits.guards_eq] at member
        exact .inl ⟨member, by simp⟩
    | dropped here =>
        -- The two guards of a vector compared with itself are not the same.
        obtain ⟨rfl, rfl⟩ := Prod.mk.inj (List.mem_singleton.mp member)
        have two := held.nodup t
        rw [here] at two
        refine .inl ⟨here ▸ List.mem_cons_self, ?_⟩
        rintro ⟨⟩
        exact (List.nodup_cons.mp two).1 (List.mem_singleton_self _)

namespace Held

variable (held : s.Held)
include held

theorem live_preserved (stepped : s.step eq action = some next) (t : Thread) (x : Index) (id : Nat)
    (member : (x, id) ∈ (next.phases t).guards) : next.Holds t x id := by
  rcases (moves_of_step stepped).guards_of_next held member with ⟨before, kept⟩ | ⟨rfl, opened⟩
  · exact (held.live t x id before).kept stepped kept
  · obtain ⟨count, -, guards⟩ := (move_of_below stepped rfl).exists_returned opened
    rw [Holds, guards]
    exact ⟨_, List.mem_cons_self, rfl, rfl, rfl⟩

theorem nodup_preserved (identified : ∀ x, (s.stores x).Identified)
    (move : Moves eq s action next) (t : Thread) : (next.phases t).guards.Nodup := by
  rcases move.turns t with ⟨same, -⟩ | turn
  · exact same ▸ held.nodup t
  · generalize next.phases t = phase at turn
    cases turn with
    | compare | returned => exact .nil
    | held | second | dropped => exact List.nodup_singleton _
    | visit visits => exact visits.guards_eq ▸ held.nodup t
    | @lengths self operand left right here opened =>
        refine List.nodup_cons.mpr ⟨fun same => ?_, List.nodup_singleton _⟩
        obtain ⟨rfl, rfl⟩ := Prod.mk.inj (List.mem_singleton.mp same)
        obtain ⟨guard, live, named, -⟩ := held.live t self left (here ▸ List.mem_singleton_self _)
        exact (identified self).readGuard_ne t left (Pc.call_of_opened opened) guard live named

end Held

variable {contents : Index → List V}

theorem held_of_reachable (reachable : (vecs Thread w eq contents).Reachable s) : s.Held := by
  refine reachable.invariant Held (fun _ start => start ▸ .new contents) ?_
  rintro s action next prior held ⟨-, stepped⟩
  have identified x := State.identified_of_reachable (container_reachable prior x)
  exact ⟨held.live_preserved stepped, held.nodup_preserved identified (moves_of_step stepped)⟩

end Vecs

end DarkStd.Sync
