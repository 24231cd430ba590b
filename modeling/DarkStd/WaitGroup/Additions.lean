import DarkStd.WaitGroup.Moves

/-!
# What additions leave in `total`

`add` reads `total` with one atomic operation and writes it with another, so
what other threads add in between is lost. A run adds up exactly when every
store still finds in `total` what its own `fetch_or` has read.
-/

namespace DarkStd.WaitGroup

open DarkStd.Semantics

/-- A store that is about to happen finds `total` as it was read; one that
panics instead does not count. -/
def Pc.Fresh (overflowChecks : Bool) (total : BitVec 64) : Pc → Prop
  | .store _ v _ current =>
      current = total ∨ overflowChecks = true ∧ 2 ^ 64 ≤ current.toNat + v.toNat
  | _ => True

/-- What an addition under way is going to add is not zero. -/
@[grind] def Pc.positive : Pc → Prop
  | .fetchOr _ v _ | .store _ v _ _ => 0 < v.toNat
  | _ => True

/-- Explicit additions are of at least one. -/
@[grind] def Action.positive {Thread : Type} : Action Thread → Prop
  | .add _ _ v => 0 < v.toNat
  | _ => True

namespace State

variable {Thread : Type}

/-- Every store finds `total` as it was read. -/
def Fresh (overflowChecks : Bool) (s : State Thread) : Action Thread → Prop
  | .step t => (s.pc t).Fresh overflowChecks s.total
  | _ => True

theorem fresh_step {overflowChecks : Bool} {s : State Thread} {t : Thread} :
    s.Fresh overflowChecks (.step t) ↔ (s.pc t).Fresh overflowChecks s.total := .rfl

/-- What `total` should be: its value at the start and what has been added since. -/
def sum (start s : State Thread) : Nat := start.total.toNat + (s.added - start.added)

/-- How far `total`, and what additions under way have read of it, can be from
what it should be. -/
structure Bounded (start s : State Thread) : Prop where
  added_le : start.added ≤ s.added
  total_le : s.total.toNat ≤ sum start s
  current_le : ∀ t handle v cloning current, s.pc t = .store handle v cloning current →
    current.toNat ≤ sum start s
  current_eq : ∀ t handle v cloning current, s.pc t = .store handle v cloning current →
    current.toNat = sum start s → s.total.toNat = sum start s
  positive : ∀ t, (s.pc t).positive

theorem Bounded.refl {start : State Thread} (idle : ∀ t, (start.pc t).adding = false) :
    Bounded start start where
  added_le := Nat.le_refl _
  total_le := Nat.le_add_right _ _
  current_le t handle v cloning current here := by
    have idle := idle t
    simp [here, Pc.adding] at idle
  current_eq t handle v cloning current here := by
    have idle := idle t
    simp [here, Pc.adding] at idle
  positive t := by
    have idle := idle t
    cases here : start.pc t <;> simp_all [Pc.adding, Pc.positive]

/-- Adding to `added` adds to the sum. -/
theorem Bounded.sum_add {start s next : State Thread} (bounded : Bounded start s) {v : Nat}
    (added : next.added = s.added + v) : sum start next = sum start s + v := by
  have older := bounded.added_le
  unfold sum
  omega

/-- A store that does not wrap. -/
theorem toNat_store {current v : BitVec 64} {total : Nat} (bound : current.toNat ≤ total)
    (small : total + v.toNat < 2 ^ 64) : (current + v).toNat = current.toNat + v.toNat := by
  rw [BitVec.toNat_add, Nat.mod_eq_of_lt (by omega)]

variable [DecidableEq Thread]
variable {overflowChecks : Bool} {start s next : State Thread} {action : Action Thread}

/-- What a step does to the additions: it stores one, or it leaves `total` as it
is, and then an addition about to store has just read `total` or is an old one. -/
theorem Moves.additions (move : Moves overflowChecks s action next) :
    (∃ t handle v cloning current, action = .step t ∧
      s.pc t = .store handle v cloning current ∧
      (overflowChecks = true → current.toNat + v.toNat < 2 ^ 64) ∧
      next.total = current + v ∧ next.added = s.added + v.toNat ∧
      ∀ u handle v cloning current, next.pc u = .store handle v cloning current →
        s.pc u = .store handle v cloning current) ∨
    (next.total = s.total ∧ next.added = s.added ∧ s.Fresh overflowChecks action ∧
      ∀ u handle v cloning current, next.pc u = .store handle v cloning current →
        s.pc u = .store handle v cloning current ∨
          current = s.total ∧ s.pc u = .fetchOr handle v cloning) := by
  cases move with
  | @store t handle v current here fits =>
      exact .inl ⟨t, handle, v, false, current, rfl, here, fits, rfl, rfl, by grind⟩
  | @storeClone t handle v current here fits =>
      exact .inl ⟨t, handle, v, true, current, rfl, here, fits, rfl, rfl, by grind⟩
  | panic here checked wraps =>
      refine .inr ⟨rfl, rfl, ?_, by grind⟩
      rw [fresh_step, here]
      exact .inr ⟨checked, wraps⟩
  | drop => exact .inr ⟨rfl, rfl, trivial, by grind⟩
  | add | clone | wait | cancel => exact .inr ⟨rfl, rfl, trivial, by grind⟩
  | _ =>
      refine .inr ⟨rfl, rfl, ?_, by grind⟩
      simp_all [fresh_step, Pc.Fresh]

/-- Nothing is ever taken off what has been added. -/
theorem Moves.added_le (move : Moves overflowChecks s action next) : s.added ≤ next.added := by
  rcases move.additions with ⟨_, _, v, _, _, _, _, _, _, added, _⟩ | ⟨-, added, -⟩ <;> omega

theorem Moves.positive (move : Moves overflowChecks s action next) (positive : action.positive)
    (adds : ∀ t, (s.pc t).positive) (t : Thread) : (next.pc t).positive := by
  have adds := adds t
  cases move <;> grind -ring -linarith

namespace Bounded

variable (bounded : Bounded start s)
include bounded

theorem preserved (move : Moves overflowChecks s action next) (positive : action.positive)
    (small : sum start next < 2 ^ 64) : Bounded start next := by
  have total := bounded.total_le
  have current_le := bounded.current_le
  have current_eq := bounded.current_eq
  have older := Nat.le_trans bounded.added_le move.added_le
  have adds := move.positive positive bounded.positive
  rcases move.additions with ⟨t, handle, v, cloning, current, -, here, -, stored, added, stores⟩ |
    ⟨same, added, -, stores⟩
  · -- What the others have read is now behind the sum, and stays behind it.
    have grown := bounded.sum_add added
    have read := current_le t handle v cloning current here
    have one := bounded.positive t
    rw [here] at one
    have one : 0 < v.toNat := one
    have fits := toNat_store read (grown ▸ small)
    refine ⟨older, ?_, fun u handle' v' cloning' current' here' => ?_,
      fun u handle' v' cloning' current' here' equal => ?_, adds⟩
    · rw [stored]
      omega
    · have read' := current_le u handle' v' cloning' current' (stores _ _ _ _ _ here')
      omega
    · have read' := current_le u handle' v' cloning' current' (stores _ _ _ _ _ here')
      omega
  · have grown : sum start next = sum start s := bounded.sum_add (by rw [added, Nat.add_zero])
    refine ⟨older, by rw [same, grown]; exact total, fun u handle v cloning current here => ?_,
      fun u handle v cloning current here equal => ?_, adds⟩
    · rw [grown]
      rcases stores _ _ _ _ _ here with before | ⟨read, -⟩
      · exact current_le u handle v cloning current before
      · exact read ▸ total
    · rw [grown] at equal ⊢
      rw [same]
      rcases stores _ _ _ _ _ here with before | ⟨read, -⟩
      · exact current_eq u handle v cloning current before equal
      · exact read ▸ equal

end Bounded

/-- Every clone that exists has been added. -/
def ClonesAdded (start s : State Thread) : Prop :=
  ∃ building : List Thread, (∀ t handle, s.pc t = .build handle → t ∈ building) ∧
    s.created + building.length ≤ start.created + (s.added - start.added)

theorem ClonesAdded.preserved (clones : ClonesAdded start s)
    (move : Moves overflowChecks s action next) (older : start.added ≤ s.added)
    (one : ∀ t handle v current, s.pc t = .store handle v true current → v = 1) :
    ClonesAdded start next := by
  obtain ⟨building, built, bound⟩ := clones
  cases move with
  | @store t handle v current here fits =>
      refine ⟨building, by grind, ?_⟩
      simp only [finish_created, finish_added]
      omega
  | @storeClone t handle v current here fits =>
      have one : v.toNat = 1 := by
        rw [one t handle v current here]
        rfl
      refine ⟨t :: building, by grind, ?_⟩
      simp only [goto_created, goto_added, List.length_cons, one]
      omega
  | @build t handle here =>
      have member := built t handle here
      have length := List.length_erase_of_mem member
      have some := List.length_pos_of_mem member
      refine ⟨building.erase t, fun u handle' here' => ?_, ?_⟩
      · have different : u ≠ t := by
          rintro rfl
          simp at here'
        exact (List.mem_erase_of_ne different).mpr
          (built u handle' (by simpa [different] using here'))
      · simp only [finish_created, finish_added]
        omega
  | _ => exact ⟨building, by grind, bound⟩

/-- What holds in a run whose stores are all fresh. -/
structure AddedUp (start s : State Thread) : Prop where
  added_le : start.added ≤ s.added
  total_eq : s.total.toNat = sum start s
  clones : ClonesAdded start s
  clone_fetchOr : ∀ t handle v, s.pc t = .fetchOr handle v true → v = 1
  clone_store : ∀ t handle v current, s.pc t = .store handle v true current → v = 1

omit [DecidableEq Thread] in
theorem AddedUp.refl (idle : ∀ t, (start.pc t).adding = false) : AddedUp start start where
  added_le := Nat.le_refl _
  total_eq := by rw [sum, Nat.sub_self, Nat.add_zero]
  clones := by
    refine ⟨[], fun t handle here => ?_, by simp⟩
    have idle := idle t
    simp [here, Pc.adding] at idle
  clone_fetchOr t handle v here := by
    have idle := idle t
    simp [here, Pc.adding] at idle
  clone_store t handle v current here := by
    have idle := idle t
    simp [here, Pc.adding] at idle

theorem AddedUp.preserved (up : AddedUp start s) (move : Moves overflowChecks s action next)
    (fresh : s.Fresh overflowChecks action) (small : sum start next < 2 ^ 64) :
    AddedUp start next where
  added_le := Nat.le_trans up.added_le move.added_le
  total_eq := by
    have older := up.added_le
    have total := up.total_eq
    rcases move.additions with ⟨t, handle, v, cloning, current, rfl, here, fits, stored, added, -⟩ |
      ⟨same, added, -⟩
    · have grown : sum start next = sum start s + v.toNat := by
        unfold sum
        omega
      rw [fresh_step, here] at fresh
      rcases fresh with rfl | ⟨checked, wraps⟩
      · rw [stored, toNat_store (Nat.le_of_eq total) (grown ▸ small)]
        omega
      · have fits := fits checked
        omega
    · rw [same, total]
      unfold sum
      rw [added]
  clones := up.clones.preserved move up.added_le up.clone_store
  clone_fetchOr := by
    have old := up.clone_fetchOr
    cases move <;> grind -ring -linarith
  clone_store := by
    have old := up.clone_store
    have read := up.clone_fetchOr
    cases move <;> grind -ring -linarith

end State

open State

namespace State

variable {Thread : Type} [DecidableEq Thread] {overflowChecks : Bool}
variable {start s : State Thread} {actions : List (Action Thread)}

end State

end DarkStd.WaitGroup
