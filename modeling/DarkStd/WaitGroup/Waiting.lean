import DarkStd.WaitGroup.Moves

/-!
# The steps of a wait

While nobody adds to `total`, a wait receives until it has as many messages as
`total` says, and each of its steps brings it nearer to its return.
-/

namespace DarkStd.WaitGroup

open DarkStd.Semantics

/-- Inside a wait on the handle, while `total` stays what it is. -/
@[simp, grind] def Pc.Waits (handle : Nat) (total : BitVec 64) : Pc → Prop
  | .load other | .leave other _ => other = handle
  | .recv other current => other = handle ∧ current < total
  | .compare other current => other = handle ∧ current ≤ total
  | _ => False

/-- The messages a running wait has received. -/
@[simp, grind] def Pc.taken (total : BitVec 64) : Pc → Nat
  | .recv _ current | .compare _ current => current.toNat
  | .leave _ _ => total.toNat
  | _ => 0

/-- A bound on the steps a running wait has left. -/
@[simp, grind] def Pc.work (total : BitVec 64) : Pc → Nat
  | .load _ => 2 * total.toNat + 4
  | .recv _ current => 2 * (total.toNat - current.toNat) + 3
  | .compare _ current => 2 * (total.toNat - current.toNat) + 4
  | .leave _ _ => 2
  | _ => 1

namespace State

variable {Thread : Type}

/-- One step of a wait: it goes on, with the messages it has received, or it
returns. -/
structure Waited (s : State Thread) (t : Thread) (handle : Nat) (next : State Thread) : Prop where
  total : next.total = s.total
  handles : next.handles = s.handles
  created : next.created = s.created
  messages : next.queue + next.received = s.queue + s.received
  others : ∀ u, u ≠ t → next.pc u = s.pc u
  received : next.received + (s.pc t).taken s.total = s.received +
    if next.pc t = .idle then s.total.toNat else (next.pc t).taken s.total
  goes : next.pc t = .idle ∧ next.returned = t :: s.returned ∨
    (next.pc t).Waits handle s.total ∧ next.returned = s.returned
  work_lt : (next.pc t).work s.total < (s.pc t).work s.total

theorem toNat_add_one {current total : BitVec 64} (below : current < total) :
    (current + 1).toNat = current.toNat + 1 := by
  have fits : current.toNat + (1 : BitVec 64).toNat < 2 ^ 64 :=
    Nat.lt_of_le_of_lt (BitVec.lt_def.mp below) total.isLt
  exact BitVec.toNat_add_of_lt fits

variable [DecidableEq Thread]
variable {overflowChecks : Bool} {s next : State Thread} {t : Thread} {handle : Nat}

/-- What a step of a wait does while a handle is left. -/
theorem waited (waits : (s.pc t).Waits handle s.total) (held : s.handles ≠ [])
    (move : Moves overflowChecks s (.step t) next) : s.Waited t handle next := by
  cases move with
  | fetchOr here | panic here | store here | storeClone here | build here =>
      rw [here] at waits
      cases waits
  | disconnected here empty senders => exact absurd senders held
  | @loadZero _ _ here zero =>
      rw [here] at waits
      constructor <;> simp_all
  | @loadNonzero _ _ here nonzero =>
      rw [here] at waits
      have positive : 0 < s.total := (BitVec.pos_iff_ne_zero _).mpr nonzero
      constructor <;> simp_all
  | @receive _ _ current queue here sent =>
      rw [here] at waits
      have grows := toNat_add_one waits.2
      have below := BitVec.lt_def.mp waits.2
      constructor <;> simp_all [BitVec.le_def] <;> omega
  | @enough _ _ current here reached =>
      rw [here] at waits
      have same : current = s.total := BitVec.le_antisymm waits.2 reached
      constructor <;> simp_all
  | @more _ _ current here below =>
      rw [here] at waits
      constructor <;> simp_all [BitVec.lt_def, BitVec.le_def]
  | @leave _ _ seen here =>
      rw [here] at waits
      constructor <;> simp_all

/-- A wait can step unless it is at an empty channel. -/
theorem wait_enabled (waits : (s.pc t).Waits handle s.total)
    (sent : ∀ current, s.pc t = .recv handle current → s.queue ≠ 0) :
    ∃ next, s.step overflowChecks (.step t) = some next := by
  cases here : s.pc t with
  | idle | fetchOr | store | build => simp [here] at waits
  | recv other current =>
      obtain ⟨rfl, below⟩ : other = handle ∧ current < s.total := by simpa [here] using waits
      obtain ⟨queue, sent⟩ := Nat.exists_eq_succ_of_ne_zero (sent current here)
      simp [step, advance, here, sent]
  | load | compare | leave => simp [step, advance, here]

end State

end DarkStd.WaitGroup
