import Mathlib.Data.Bool.Basic
import Mathlib.Data.List.Count
import DarkStd.Sync.Registry

/-!
# What a reader counter counts

A counter is the number of guards that point to it, plus one while its thread
is between a `fetch_add` and the matching `fetch_sub` or guard. The equation
holds in `usize` arithmetic without any bound; the bound, that a thread's open
sections fit in the address space, is what makes a counter that reads zero mean
that there are none.
-/

namespace DarkStd.Sync

open DarkStd.Semantics

namespace Pc

/-- Whether the thread's own call has incremented its counter. -/
@[grind] def pins : Pc → Bool
  | .load _ _ | .backOff _ _ | .reading _ _ => true
  | _ => false

/-- Inside a read method, from the call to the return. -/
@[grind] def inRead : Pc → Bool
  | .slot _ | .register _ | .push _ | .release _ _ | .add _ _ | .load _ _ | .backOff _ _
  | .reading _ _ => true
  | _ => false

/-- `begin_read` has returned and the section it opened is still the call's. -/
@[grind] def isReading : Pc → Bool
  | .reading _ _ => true
  | _ => false

end Pc

section Guards

variable {Thread : Type}

theorem guardsOn_cons (guard : ReadGuard Thread) (guards : List (ReadGuard Thread))
    (count : Nat) :
    guardsOn (guard :: guards) count =
      guardsOn guards count + if guard.count = count then 1 else 0 := by
  simp [guardsOn, List.countP_cons]

theorem guardsOn_eq_zero {guards : List (ReadGuard Thread)} {count : Nat} :
    guardsOn guards count = 0 ↔ ∀ guard ∈ guards, guard.count ≠ count := by
  simp [guardsOn, List.countP_eq_zero]

variable [DecidableEq Thread] {guard : ReadGuard Thread} {guards : List (ReadGuard Thread)}

theorem guardsOn_erase (live : guard ∈ guards) (count : Nat) :
    guardsOn guards count =
      guardsOn (guards.erase guard) count + if guard.count = count then 1 else 0 := by
  rw [← guardsOn_cons]
  exact (List.perm_cons_erase live).countP_eq _

/-- Handing an iterator over leaves every count as it was. -/
theorem guardsOn_send (live : guard ∈ guards) (receiver : Thread) (count : Nat) :
    guardsOn ({ guard with holder := receiver } :: guards.erase guard) count =
      guardsOn guards count := by
  rw [guardsOn_erase live, guardsOn_cons]

end Guards

namespace State

variable {Thread : Type} {w : Nat}

/-- The guards on a counter and the running call of its thread, if that has
incremented the counter. -/
def sections (s : State Thread w) (t : Thread) (count : Nat) : Nat :=
  guardsOn s.readGuards count + (s.pc t).pins.toNat

theorem guardsOf_eq {s : State Thread w} {t : Thread} {count : Nat}
    (slot : s.slots t = some count) : s.guardsOf t = guardsOn s.readGuards count := by
  rw [guardsOf, slot, Option.elim_some]

theorem guardsOf_eq_zero {s : State Thread w} {t : Thread} (slot : s.slots t = none) :
    s.guardsOf t = 0 := by
  rw [guardsOf, slot, Option.elim_none]

/-- Every counter is the number of open sections it stands for, and no thread
opens more sections than `usize` can count. -/
structure Accounted (s : State Thread w) : Prop where
  guard_lt : ∀ guard ∈ s.readGuards, guard.count < s.registry.length
  counter_eq : ∀ t count, s.slots t = some count →
    s.registry[count]? = some (BitVec.ofNat w (s.sections t count))
  sections_lt : ∀ t, s.guardsOf t + (s.pc t).inRead.toNat < 2 ^ w

theorem Accounted.new : (State.new Thread w).Accounted where
  guard_lt := by simp [State.new]
  counter_eq := by simp [State.new]
  sections_lt := fun _ => Nat.two_pow_pos w

/-- No guard points past the end of the registry. -/
theorem Accounted.guardsOn_length {s : State Thread w} (accounted : s.Accounted) :
    guardsOn s.readGuards s.registry.length = 0 :=
  guardsOn_eq_zero.mpr fun guard live => Nat.ne_of_lt (accounted.guard_lt guard live)

/-- A counter read as a number: the sections it stands for fit in it. -/
theorem Accounted.toNat_counter {s : State Thread w} (accounted : s.Accounted) {t : Thread}
    {count : Nat} (slot : s.slots t = some count) :
    ∃ counter, s.registry[count]? = some counter ∧ counter.toNat = s.sections t count := by
  have bound := accounted.sections_lt t
  rw [guardsOf_eq slot] at bound
  have pins_le : (s.pc t).pins.toNat ≤ (s.pc t).inRead.toNat := by
    apply Bool.toNat_le_toNat
    cases s.pc t <;> simp [Pc.pins, Pc.inRead]
  have small : s.sections t count < 2 ^ w := by
    unfold sections
    omega
  exact ⟨_, accounted.counter_eq t count slot, by rw [BitVec.toNat_ofNat, Nat.mod_eq_of_lt small]⟩

/-- A counter and the number of sections it stands for change together. -/
def Balanced (s next : State Thread w) (t : Thread) (count : Nat) : Prop :=
  (next.registry[count]? = s.registry[count]? ∧
      next.sections t count = s.sections t count) ∨
    (next.registry[count]? = s.registry[count]?.map (· + 1) ∧
      next.sections t count = s.sections t count + 1) ∨
    (next.registry[count]? = s.registry[count]?.map (· - 1) ∧
      s.sections t count = next.sections t count + 1)

/-- No thread enters or leaves a section, and no guard moves. -/
theorem balanced_of_pins {s next : State Thread w} (registry : next.registry = s.registry)
    (guards : next.readGuards = s.readGuards) (pins : ∀ u, (next.pc u).pins = (s.pc u).pins)
    (t : Thread) (count : Nat) : Balanced s next t count := by
  refine .inl ⟨by rw [registry], ?_⟩
  rw [sections, sections, pins, guards]

variable [DecidableEq Thread]
variable {kind : Kind} {s next : State Thread w} {action : Action Thread}

theorem sections_goto (t u : Thread) (pc : Pc) (count : Nat) :
    (s.goto u pc).sections t count =
      guardsOn s.readGuards count + (if t = u then pc else s.pc t).pins.toNat := by
  rw [sections, goto_pc, goto_readGuards]

/-- `fetch_add` by the thread the counter belongs to. -/
theorem balanced_fetchAdd (registered : s.Registered) {t u : Thread} {pc : Pc}
    {count position : Nat} (slot : s.slots t = some count) (mine : s.slots u = some position)
    (before : (s.pc u).pins = false) (after : pc.pins = true) :
    Balanced s ((s.fetchAdd position).goto u pc) t count := by
  by_cases actor : t = u
  · subst actor
    cases slot.symm.trans mine
    refine .inr (.inl ⟨by simp [List.getElem?_modify_eq], ?_⟩)
    rw [sections_goto, if_pos rfl, after, sections, before]
    rfl
  · have other : position ≠ count := fun same =>
      actor (registered.slot_injective t u count slot (same ▸ mine))
    refine .inl ⟨by simp [other], ?_⟩
    rw [sections_goto, if_neg actor]
    rfl

/-- `fetch_sub` by the thread the counter belongs to. -/
theorem balanced_fetchSub (registered : s.Registered) {t u : Thread} {pc : Pc}
    {count position : Nat} (slot : s.slots t = some count) (mine : s.slots u = some position)
    (before : (s.pc u).pins = true) (after : pc.pins = false) :
    Balanced s ((s.fetchSub position).goto u pc) t count := by
  by_cases actor : t = u
  · subst actor
    cases slot.symm.trans mine
    refine .inr (.inr ⟨by simp [List.getElem?_modify_eq], ?_⟩)
    rw [sections_goto, if_pos rfl, after, sections, before]
    rfl
  · have other : position ≠ count := fun same =>
      actor (registered.slot_injective t u count slot (same ▸ mine))
    refine .inl ⟨by simp [other], ?_⟩
    rw [sections_goto, if_neg actor]
    rfl

/-- Every step keeps every counter in balance. -/
theorem Moves.balanced (move : Moves kind s action next) (registered : s.Registered)
    {t : Thread} {count : Nat} (slot : s.slots t = some count) :
    Balanced s next t count := by
  have pointer := registered.pointer_slot
  cases move with
  | @add u call position here =>
      have mine := pointer u position (by rw [here]; rfl)
      exact balanced_fetchAdd registered slot mine (by rw [here]; rfl) rfl
  | @backOff u call position here =>
      have mine := pointer u position (by rw [here]; rfl)
      exact balanced_fetchSub registered slot mine (by rw [here]; rfl) rfl
  | @leaveRead u call position here =>
      have mine := pointer u position (by rw [here]; rfl)
      exact balanced_fetchSub registered slot mine (by rw [here]; rfl) rfl
  | @returnRead u call position guard here =>
      -- The section passes from the call to the guard it returns.
      have mine := pointer u position (by rw [here]; rfl)
      refine .inl ⟨rfl, ?_⟩
      rw [sections_goto, guardsOn_cons, sections]
      by_cases actor : t = u
      · subst actor
        cases slot.symm.trans mine
        simp [here, Pc.pins]
      · have other : position ≠ count := fun same =>
          actor (registered.slot_injective t u count slot (same ▸ mine))
        simp [actor, other]
  | @dropRead u guard idle live =>
      have dropped := guardsOn_erase live count
      by_cases same : guard.count = count
      · subst same
        refine .inr (.inr ⟨by simp [List.getElem?_modify_eq], ?_⟩)
        rw [sections, dropped, if_pos rfl]
        exact Nat.add_right_comm ..
      · refine .inl ⟨by simp [same], ?_⟩
        rw [sections, sections, dropped, if_neg same]
        rfl
  | @send receiver guard idle live =>
      refine .inl ⟨rfl, ?_⟩
      rw [sections, guardsOn_send live]
      rfl
  | @push u call here =>
      have below := registered.slot_lt t count slot
      refine .inl ⟨by simp [List.getElem?_append_left below], ?_⟩
      rw [sections_goto, sections]
      by_cases actor : t = u
      · simp [actor, here, Pc.pins]
      · simp [actor]
  | _ =>
      refine balanced_of_pins ?_ ?_ (fun v => ?_) t count
      · rfl
      · rfl
      · grind

namespace Accounted

variable (accounted : s.Accounted)
include accounted

theorem guard_lt_preserved (registered : s.Registered) (move : Moves kind s action next)
    (guard : ReadGuard Thread) (live : guard ∈ next.readGuards) :
    guard.count < next.registry.length := by
  have old := accounted.guard_lt
  cases move with
  | @returnRead t call count returned here =>
      -- The new guard points to the counter its call used.
      have pointer := registered.pointer_slot t count (by rw [here]; rfl)
      have below := registered.slot_lt t count pointer
      rcases List.mem_cons.mp live with rfl | live
      · exact below
      · exact old guard live
  | @dropRead t dropped idle liveDropped =>
      simpa using old guard (List.mem_of_mem_erase live)
  | @send receiver sent idle liveSent =>
      rcases List.mem_cons.mp live with rfl | live
      · exact old sent liveSent
      · exact old guard (List.mem_of_mem_erase live)
  | push here => simpa using Nat.lt_succ_of_lt (old guard live)
  | _ => simpa using old guard live

theorem counter_eq_preserved (registered : s.Registered) (move : Moves kind s action next)
    (t : Thread) (count : Nat) (slot : next.slots t = some count) :
    next.registry[count]? = some (BitVec.ofNat w (next.sections t count)) := by
  by_cases known : s.slots t = some count
  · have old := accounted.counter_eq t count known
    rcases move.balanced registered known with
      ⟨counter, sections⟩ | ⟨counter, sections⟩ | ⟨counter, sections⟩
    · rw [counter, sections, old]
    · rw [counter, sections, old, Option.map_some, BitVec.ofNat_add]
      rfl
    · rw [counter, old, Option.map_some, sections, BitVec.ofNat_add]
      simp
  · -- The slot is new, so the step is a push, of a counter nothing points to.
    cases move with
    | @push u call here =>
        by_cases actor : t = u
        · subst actor
          obtain rfl : s.registry.length = count := by simpa using slot
          rw [sections_goto, if_pos rfl, accounted.guardsOn_length]
          simp [Pc.pins]
        · exact absurd (by simpa [actor] using slot) known
    | _ => exact absurd slot known

theorem sections_lt_preserved (registered : s.Registered) (move : Moves kind s action next)
    (t : Thread) : next.guardsOf t + (next.pc t).inRead.toNat < 2 ^ w := by
  have old := accounted.sections_lt t
  cases move with
  | @read u method idle room =>
      by_cases actor : t = u
      · rw [goto_pc, if_pos actor, actor]
        exact room
      · rw [goto_pc, if_neg actor]
        exact old
  | @returnRead u call count guard here =>
      have mine := registered.pointer_slot u count (by rw [here]; rfl)
      by_cases actor : t = u
      · subst actor
        rw [guardsOf_eq mine, here] at old
        rw [guardsOf_eq (by exact mine), goto_readGuards, guardsOn_cons]
        simpa [Pc.inRead] using old
      · cases slot : s.slots t with
        | none =>
            rw [guardsOf_eq_zero (by exact slot)]
            rw [guardsOf_eq_zero slot] at old
            simpa [goto_pc, actor] using old
        | some position =>
            have other : count ≠ position := fun same =>
              actor (registered.slot_injective t u count (same ▸ slot) mine)
            rw [guardsOf_eq (by exact slot), goto_readGuards, guardsOn_cons]
            rw [guardsOf_eq slot] at old
            simpa [goto_pc, actor, other] using old
  | @dropRead u guard idle live =>
      cases slot : s.slots t with
      | none =>
          rw [guardsOf_eq_zero slot] at old
          rw [guardsOf_eq_zero (by exact slot)]
          exact old
      | some position =>
          rw [guardsOf_eq slot, guardsOn_erase live] at old
          rw [guardsOf_eq (by exact slot)]
          exact Nat.lt_of_le_of_lt (Nat.add_le_add_right (Nat.le_add_right ..) _) old
  | @send receiver guard idle live =>
      cases slot : s.slots t with
      | none =>
          rw [guardsOf_eq_zero slot] at old
          rw [guardsOf_eq_zero (by exact slot)]
          exact old
      | some position =>
          rw [guardsOf_eq slot] at old
          rw [guardsOf_eq (by exact slot), guardsOn_send live]
          exact old
  | @push u call here =>
      by_cases actor : t = u
      · subst actor
        have missing := registered.unregistered_slot t (by rw [here]; rfl)
        rw [guardsOf_eq_zero missing, here] at old
        rw [guardsOf_eq (by simp; rfl), goto_readGuards, accounted.guardsOn_length]
        simpa [Pc.inRead] using old
      · simpa [guardsOf, goto_pc, actor] using old
  | _ =>
      refine Nat.lt_of_le_of_lt (Nat.add_le_add_left (Bool.toNat_le_toNat ?_) _) old
      rw [goto_pc]
      split <;> simp_all [Pc.inRead]

theorem preserved (registered : s.Registered) (move : Moves kind s action next) :
    next.Accounted where
  guard_lt := accounted.guard_lt_preserved registered move
  counter_eq := accounted.counter_eq_preserved registered move
  sections_lt := accounted.sections_lt_preserved registered move

end Accounted

theorem accounted_of_reachable (reachable : (container kind Thread w).Reachable s) :
    s.Accounted :=
  reachable.invariant Accounted (fun _ start => start ▸ .new)
    fun _ _ _ prior accounted move =>
      accounted.preserved (registered_of_reachable prior) (moves_of_step move)

end State

end DarkStd.Sync
