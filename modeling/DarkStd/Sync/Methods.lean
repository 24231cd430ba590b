import Mathlib.Data.Finmap
import DarkStd.Sync.Content

/-!
# The methods of the container types

What runs between `begin_read` or `begin_write` and the end of the section, for
`SyncVec` on a list and for the three map types on a finite map. A loop of the
collection inside (`extend`, `contains`, `to_vec`) accesses it element by
element; the lookups and updates of a map are one access each.
-/

namespace DarkStd.Sync

open DarkStd.Semantics

section Vec

/-- The `&self` methods of `SyncVec` that read. -/
inductive VecRead (V : Type) where
  | len
  | isEmpty
  | contains (x : V)
  | get (index : Nat)
  | iter
  | dirtyRef
  | clone

/-- The `&self` methods of `SyncVec` that write. -/
inductive VecWrite (V : Type) where
  | insert (index : Nat) (v : V)
  | set (index : Nat) (v : V)
  | push (v : V)
  | pushes (arr : List V)
  | pop
  | remove (index : Nat)
  | clear
  | shrinkToFit
  | getMut (index : Nat)
  | iterMut

/-- What they return; a guard is named by the value it points to. -/
inductive VecResult (V : Type) where
  | unit
  | option (value : Option V)
  | size (n : Nat)
  | flag (b : Bool)
  | vec (content : List V)
deriving DecidableEq, Repr

namespace Vec

variable {V : Type}

/-- The body of a method of a vector. -/
abbrev Code (V : Type) : Type := Body (List V) (Outcome (VecResult V))

/-- The end of a method that returns its result. -/
def ret (result : VecResult V) : Code V := .done (.returned result)

/-- `slice::contains`, from an index on. -/
def containsFrom (eq : V → V → Bool) (x : V) : Nat → Nat → Code V
  | 0, _ => ret (.flag false)
  | remaining + 1, index => .look fun content =>
      match content[index]? with
      | none => ret (.flag false)
      | some v => if eq v x then ret (.flag true) else containsFrom eq x remaining (index + 1)

/-- `to_vec`, with what has been copied so far. -/
def copyFrom : Nat → List V → Code V
  | 0, copied => ret (.vec copied)
  | remaining + 1, copied => .look fun content =>
      match content[copied.length]? with
      | none => ret (.vec copied)
      | some v => copyFrom remaining (copied ++ [v])

/-- `Vec::extend` -/
def extend : List V → Code V
  | [] => ret (.option none)
  | v :: arr => .update (· ++ [v]) (extend arr)

/-- `Vec::insert`; it checks the index before it moves an element. -/
def insert (index : Nat) (v : V) : Code V :=
  .look fun content =>
    if index > content.length then .done .panicked
    else .update (·.insertIdx index v) (ret (.option none))

/-- `m[index] = v` -/
def set (index : Nat) (v : V) : Code V :=
  .look fun content =>
    if index ≥ content.length then .done .panicked
    else .update (·.set index v) (ret (.option none))

/-- `Vec::pop` -/
def pop : Code V :=
  .look fun content =>
    match content.getLast? with
    | none => ret (.option none)
    | some v => .update (·.dropLast) (ret (.option (some v)))

/-- `Vec::remove` -/
def remove (index : Nat) : Code V :=
  .look fun content =>
    match content[index]? with
    | none => .done .panicked
    | some v => .update (·.eraseIdx index) (ret (.option (some v)))

/-- A method that returns a guard for the element at an index, if there is one. -/
def guardAt (index : Nat) : Code V :=
  .look fun content =>
    match content[index]? with
    | some v => .done (.guard (.option (some v)))
    | none => ret (.option none)

/-- The bodies of the methods that read. -/
def readBody (eq : V → V → Bool) : VecRead V → Code V
  | .len => .look fun content => ret (.size content.length)
  | .isEmpty => .look fun content => ret (.flag content.isEmpty)
  | .contains x => .look fun content => containsFrom eq x content.length 0
  | .get index => guardAt index
  | .iter => .done (.guard .unit)
  | .dirtyRef => .done (.guard .unit)
  | .clone => .look fun content => copyFrom content.length []

/-- The bodies of the methods that write. -/
def writeBody : VecWrite V → Code V
  | .insert index v => insert index v
  | .set index v => set index v
  | .push v => .update (· ++ [v]) (ret (.option none))
  | .pushes arr => extend arr
  | .pop => pop
  | .remove index => .look fun content =>
      if content.length > index then remove index else ret (.option none)
  | .clear => .update (fun _ => []) (ret .unit)
  | .shrinkToFit => ret .unit
  | .getMut index => guardAt index
  | .iterMut => .done (.guard .unit)

/-- What the methods that read are on a list. -/
def read (eq : V → V → Bool) : VecRead V → List V → Outcome (VecResult V)
  | .len, content => .returned (.size content.length)
  | .isEmpty, content => .returned (.flag content.isEmpty)
  | .contains x, content => .returned (.flag (content.any (eq · x)))
  | .get index, content =>
      match content[index]? with
      | some v => .guard (.option (some v))
      | none => .returned (.option none)
  | .iter, _ => .guard .unit
  | .dirtyRef, _ => .guard .unit
  | .clone, content => .returned (.vec content)

/-- What the methods that write are on a list. -/
def write : VecWrite V → List V → List V × Outcome (VecResult V)
  | .insert index v, content =>
      if index ≤ content.length then (content.insertIdx index v, .returned (.option none))
      else (content, .panicked)
  | .set index v, content =>
      if index < content.length then (content.set index v, .returned (.option none))
      else (content, .panicked)
  | .push v, content => (content ++ [v], .returned (.option none))
  | .pushes arr, content => (content ++ arr, .returned (.option none))
  | .pop, content => (content.dropLast, .returned (.option content.getLast?))
  | .remove index, content =>
      (content.eraseIdx index, .returned (.option content[index]?))
  | .clear, _ => ([], .returned .unit)
  | .shrinkToFit, content => (content, .returned .unit)
  | .getMut index, content =>
      match content[index]? with
      | some v => (content, .guard (.option (some v)))
      | none => (content, .returned (.option none))
  | .iterMut, content => (content, .guard .unit)

theorem run_containsFrom (eq : V → V → Bool) (x : V) (content : List V) (remaining index : Nat)
    (enough : content.length ≤ index + remaining) :
    (containsFrom eq x remaining index).run content =
      (content, .returned (.flag ((content.drop index).any (eq · x)))) := by
  induction remaining generalizing index with
  | zero =>
      rw [List.drop_eq_nil_of_le (show content.length ≤ index from enough)]
      rfl
  | succ remaining inductionHypothesis =>
      rw [containsFrom, Body.run_look]
      split
      case h_1 past =>
        rw [List.drop_eq_nil_of_le (List.getElem?_eq_none_iff.mp past)]
        rfl
      case h_2 v found =>
        obtain ⟨below, here⟩ := List.getElem?_eq_some_iff.mp found
        rw [List.drop_eq_getElem_cons below, here, List.any_cons]
        split
        case isTrue equal => simp [equal, ret]
        case isFalse different =>
          rw [inductionHypothesis (index + 1) (by omega)]
          simp [different]

theorem run_copyFrom (content copied rest : List V) (same : content = copied ++ rest) :
    (copyFrom rest.length copied).run content = (content, .returned (.vec content)) := by
  induction rest generalizing copied with
  | nil =>
      rw [List.append_nil] at same
      rw [same]
      rfl
  | cons v rest inductionHypothesis =>
      rw [List.length_cons, copyFrom, Body.run_look]
      have here : content[copied.length]? = some v := by simp [same]
      rw [here]
      exact inductionHypothesis (copied ++ [v]) (by simp [same])

theorem run_extend (arr content : List V) :
    (extend arr).run content = (content ++ arr, .returned (.option none)) := by
  induction arr generalizing content with
  | nil => simp [extend, ret]
  | cons v arr inductionHypothesis =>
      rw [extend, Body.run_update, inductionHypothesis, List.append_assoc]
      rfl

theorem run_readBody (eq : V → V → Bool) (op : VecRead V) (content : List V) :
    (readBody eq op).run content = (content, read eq op content) := by
  cases op with
  | contains x => exact run_containsFrom eq x content content.length 0 (Nat.le_add_left ..)
  | clone => exact run_copyFrom content [] content rfl
  | get index =>
      rw [readBody, guardAt, Body.run_look, read]
      split <;> rfl
  | _ => rfl

theorem run_writeBody (op : VecWrite V) (content : List V) :
    (writeBody op).run content = write op content := by
  cases op with
  | insert index v =>
      rw [writeBody, insert, Body.run_look, write]
      by_cases inside : index ≤ content.length
      · rw [if_neg (Nat.not_lt.mpr inside), if_pos inside]
        rfl
      · rw [if_pos (Nat.not_le.mp inside), if_neg inside]
        rfl
  | set index v =>
      rw [writeBody, set, Body.run_look, write]
      by_cases inside : index < content.length
      · rw [if_neg (Nat.not_le.mpr inside), if_pos inside]
        rfl
      · rw [if_pos (Nat.not_lt.mp inside), if_neg inside]
        rfl
  | pushes arr => exact run_extend arr content
  | pop =>
      rw [writeBody, pop, Body.run_look, write]
      split
      case h_1 empty =>
        rw [List.getLast?_eq_none_iff.mp empty]
        rfl
      case h_2 v last =>
        rw [last]
        rfl
  | remove index =>
      rw [writeBody, Body.run_look, write]
      by_cases inside : content.length > index
      · rw [if_pos inside, remove, Body.run_look, List.getElem?_eq_getElem inside]
        rfl
      · rw [if_neg inside, List.eraseIdx_of_length_le (Nat.not_lt.mp inside),
          List.getElem?_eq_none_iff.mpr (Nat.not_lt.mp inside)]
        rfl
  | getMut index =>
      rw [writeBody, guardAt, Body.run_look, write]
      split <;> rfl
  | _ => rfl

theorem readOnly_containsFrom (eq : V → V → Bool) (x : V) (remaining index : Nat) :
    (containsFrom eq x remaining index).ReadOnly := by
  induction remaining generalizing index with
  | zero => trivial
  | succ remaining inductionHypothesis =>
      intro content
      beta_reduce
      split
      case h_1 => trivial
      case h_2 =>
        split
        case isTrue => trivial
        case isFalse => exact inductionHypothesis (index + 1)

theorem readOnly_copyFrom (remaining : Nat) (copied : List V) :
    (copyFrom remaining copied).ReadOnly := by
  induction remaining generalizing copied with
  | zero => trivial
  | succ remaining inductionHypothesis =>
      intro content
      beta_reduce
      split
      case h_1 => trivial
      case h_2 v _ => exact inductionHypothesis (copied ++ [v])

theorem readOnly_readBody (eq : V → V → Bool) (op : VecRead V) : (readBody eq op).ReadOnly := by
  cases op with
  | contains x => exact fun content => readOnly_containsFrom eq x content.length 0
  | clone => exact fun content => readOnly_copyFrom content.length []
  | get index =>
      intro content
      beta_reduce
      split <;> trivial
  | len | isEmpty => exact fun _ => trivial
  | iter | dirtyRef => trivial

end Vec

/-- `SyncVec<V>`; `eq` is the `PartialEq` of `V`. -/
def vecMethods (V : Type) (eq : V → V → Bool) : Interface (List V) where
  ReadOp := VecRead V
  WriteOp := VecWrite V
  Result := VecResult V
  readMethod
    | .len => .len
    | .isEmpty => .isEmpty
    | .contains _ => .contains
    | .get _ => .get
    | .iter => .iter
    | .dirtyRef => .dirtyRef
    | .clone => .clone
  writeMethod
    | .insert _ _ => .insert
    | .set _ _ => .set
    | .push _ => .push
    | .pushes _ => .pushes
    | .pop => .pop
    | .remove _ => .remove
    | .clear => .clear
    | .shrinkToFit => .shrinkToFit
    | .getMut _ => .getMut
    | .iterMut => .iterMut
  readBody := Vec.readBody eq
  writeBody := Vec.writeBody
  read := Vec.read eq
  write := Vec.write
  readOnly := Vec.readOnly_readBody eq
  run_readBody := Vec.run_readBody eq
  run_writeBody := Vec.run_writeBody

end Vec

section Map

/-- The `&self` methods of the map types that read. -/
inductive MapRead (K : Type) where
  | len
  | isEmpty
  | containsKey (k : K)
  | get (k : K)
  | iter
  | dirtyRef
  | clone

/-- The `&self` methods of the map types that write. -/
inductive MapWrite (K V : Type) where
  | insert (k : K) (v : V)
  | remove (k : K)
  | clear
  | shrinkToFit
  | getMut (k : K)
  | iterMut

/-- The collection inside a map type. -/
abbrev Map (K V : Type) : Type := Finmap fun _ : K => V

/-- What they return; a guard is named by the value it points to. -/
inductive MapResult (K V : Type) where
  | unit
  | option (value : Option V)
  | size (n : Nat)
  | flag (b : Bool)
  | map (content : Map K V)

namespace Map

variable {K V : Type}

/-- The body of a method of a map. -/
abbrev Code (K V : Type) : Type := Body (Map K V) (Outcome (MapResult K V))

/-- The end of a method that returns its result. -/
def ret (result : MapResult K V) : Code K V := .done (.returned result)

/-- A method that returns a guard for what a lookup has found. -/
def guardFor : Option V → Code K V
  | some v => .done (.guard (.option (some v)))
  | none => ret (.option none)

/-- What a lookup hands out. -/
def handed : Option V → Outcome (MapResult K V)
  | some v => .guard (.option (some v))
  | none => .returned (.option none)

theorem run_guardFor (found : Option V) (content : Map K V) :
    (guardFor found).run content = (content, handed found) := by
  cases found <;> rfl

/-- Where the user's `Hash`, `Eq` or `Ord` panics. A lookup leaves the map as it was.
An `insert` may panic while the `HashMap` makes room, which can lose entries: `insert`
is what it leaves, if it panics. -/
structure Panics (K V : Type) where
  search : K → Map K V → Bool
  insert : K → Map K V → Option (Map K V)

variable [DecidableEq K]

/-- A lookup by a writer. -/
def search (panics : Panics K V) (k : K) (found : Option V → Code K V) : Code K V :=
  .look fun content =>
    if panics.search k content then .done .panicked else found (content.lookup k)

/-- `insert` -/
def insertBody (panics : Panics K V) (k : K) (v : V) : Code K V :=
  .look fun content =>
    match panics.insert k content with
    | some left => .update (fun _ => left) (.done .panicked)
    | none => .update (·.insert k v) (ret (.option (content.lookup k)))

/-- The bodies of the methods that read. -/
def readBody : MapRead K → Code K V
  | .len => .look fun content => ret (.size content.keys.card)
  | .isEmpty => .look fun content => ret (.flag (content.keys.card == 0))
  | .containsKey k => .look fun content => ret (.flag (content.lookup k).isSome)
  | .get k => .look fun content => guardFor (content.lookup k)
  | .iter => .done (.guard .unit)
  | .dirtyRef => .done (.guard .unit)
  | .clone => .look fun content => ret (.map content)

/-- The bodies of the methods that write. -/
def writeBody (panics : Panics K V) : MapWrite K V → Code K V
  | .insert k v => insertBody panics k v
  | .remove k => search panics k fun old => .update (·.erase k) (ret (.option old))
  | .clear => .update (fun _ => ∅) (ret .unit)
  | .shrinkToFit => ret .unit
  | .getMut k => search panics k guardFor
  | .iterMut => .done (.guard .unit)

/-- What the methods that read are on a finite map. -/
def read : MapRead K → Map K V → Outcome (MapResult K V)
  | .len, content => .returned (.size content.keys.card)
  | .isEmpty, content => .returned (.flag (content.keys.card == 0))
  | .containsKey k, content => .returned (.flag (content.lookup k).isSome)
  | .get k, content => handed (content.lookup k)
  | .iter, _ => .guard .unit
  | .dirtyRef, _ => .guard .unit
  | .clone, content => .returned (.map content)

/-- What the methods that write are on a finite map. -/
def write (panics : Panics K V) : MapWrite K V → Map K V → Map K V × Outcome (MapResult K V)
  | .insert k v, content =>
      match panics.insert k content with
      | some left => (left, .panicked)
      | none => (content.insert k v, .returned (.option (content.lookup k)))
  | .remove k, content =>
      if panics.search k content then (content, .panicked)
      else (content.erase k, .returned (.option (content.lookup k)))
  | .clear, _ => (∅, .returned .unit)
  | .shrinkToFit, content => (content, .returned .unit)
  | .getMut k, content =>
      (content, if panics.search k content then .panicked else handed (content.lookup k))
  | .iterMut, content => (content, .guard .unit)

theorem run_readBody (op : MapRead K) (content : Map K V) :
    (readBody op).run content = (content, read op content) := by
  cases op with
  | get k => exact run_guardFor ..
  | _ => rfl

theorem run_writeBody (panics : Panics K V) (op : MapWrite K V) (content : Map K V) :
    (writeBody panics op).run content = write panics op content := by
  cases op with
  | insert k v =>
      rw [writeBody, insertBody, Body.run_look, write]
      split <;> rfl
  | remove k =>
      rw [writeBody, search, Body.run_look, write]
      split <;> rfl
  | getMut k =>
      rw [writeBody, search, Body.run_look, write]
      split
      · rfl
      · exact run_guardFor ..
  | _ => rfl

theorem readOnly_readBody (op : MapRead K) : (readBody op : Code K V).ReadOnly := by
  cases op with
  | get k =>
      intro content
      show (guardFor (content.lookup k)).ReadOnly
      cases content.lookup k <;> trivial
  | len | isEmpty | containsKey _ | clone => exact fun _ => trivial
  | iter | dirtyRef => trivial

end Map

/-- `SyncHashMap<K, V>`, `SyncBtreeMap<K, V>` and `SyncIndexMap<K, V>`. -/
def mapMethods (K V : Type) [DecidableEq K] (panics : Map.Panics K V) :
    Interface (Map K V) where
  ReadOp := MapRead K
  WriteOp := MapWrite K V
  Result := MapResult K V
  readMethod
    | .len => .len
    | .isEmpty => .isEmpty
    | .containsKey _ => .contains
    | .get _ => .get
    | .iter => .iter
    | .dirtyRef => .dirtyRef
    | .clone => .clone
  writeMethod
    | .insert _ _ => .insert
    | .remove _ => .remove
    | .clear => .clear
    | .shrinkToFit => .shrinkToFit
    | .getMut _ => .getMut
    | .iterMut => .iterMut
  readBody := Map.readBody
  writeBody := Map.writeBody panics
  read := Map.read
  write := Map.write panics
  readOnly := Map.readOnly_readBody
  run_readBody := Map.run_readBody
  run_writeBody := Map.run_writeBody panics

end Map

end DarkStd.Sync
