import DarkStd.WaitGroup.Group

/-!
# What one step of a group can do

`Moves` lists the effects of the steps. `Sound` is what every run keeps whatever
the interleaving: a handle that a call borrows exists, and each handle ever
created still exists, or its message is in the channel or has been received.
-/

namespace DarkStd.WaitGroup

open DarkStd.Semantics

/-- The handle a running call borrows. -/
@[grind] def Pc.handle : Pc → Option Nat
  | .idle => none
  | .fetchOr handle _ _ | .store handle _ _ _ | .build handle | .load handle | .recv handle _
  | .compare handle _ | .leave handle _ => some handle

/-- Inside `add` or `clone`. -/
@[grind] def Pc.adding : Pc → Bool
  | .fetchOr _ _ _ | .store _ _ _ _ | .build _ => true
  | _ => false

namespace State

variable {Thread : Type}

/-- What every run keeps. -/
structure Sound (s : State Thread) : Prop where
  calling : ∀ t handle, (s.pc t).handle = some handle → (t, handle) ∈ s.calls
  called : ∀ call ∈ s.calls, (s.pc call.1).handle = some call.2
  calls_nodup : s.calls.Nodup
  borrowed : ∀ t handle, (s.pc t).handle = some handle → handle ∈ s.handles
  handles_lt : ∀ handle ∈ s.handles, handle < s.created
  handles_nodup : s.handles.Nodup
  messages : s.queue + s.received + s.handles.length = s.created

theorem Sound.new : (State.new Thread).Sound where
  calling := by simp [State.new, Pc.handle]
  called := by simp [State.new]
  calls_nodup := by simp [State.new]
  borrowed := by simp [State.new, Pc.handle]
  handles_lt := by simp [State.new]
  handles_nodup := by simp [State.new]
  messages := rfl

variable [DecidableEq Thread]

section Fields

variable (s : State Thread) (t u : Thread) (pc : Pc) (handle : Nat)

@[simp, grind =] theorem goto_pc_apply :
    (s.goto t pc).pc u = if u = t then pc else s.pc u := Function.update_apply ..
theorem goto_pc_self : (s.goto t pc).pc t = pc := Function.update_self ..
@[simp, grind =] theorem goto_total : (s.goto t pc).total = s.total := rfl
@[simp, grind =] theorem goto_queue : (s.goto t pc).queue = s.queue := rfl
@[simp, grind =] theorem goto_handles : (s.goto t pc).handles = s.handles := rfl
@[simp, grind =] theorem goto_created : (s.goto t pc).created = s.created := rfl
@[simp, grind =] theorem goto_calls : (s.goto t pc).calls = s.calls := rfl
@[simp, grind =] theorem goto_received : (s.goto t pc).received = s.received := rfl
@[simp, grind =] theorem goto_added : (s.goto t pc).added = s.added := rfl
@[simp, grind =] theorem goto_returned : (s.goto t pc).returned = s.returned := rfl

@[simp, grind =] theorem finish_pc_apply :
    (s.finish t handle).pc u = if u = t then .idle else s.pc u := Function.update_apply ..
@[simp, grind =] theorem finish_total : (s.finish t handle).total = s.total := rfl
@[simp, grind =] theorem finish_queue : (s.finish t handle).queue = s.queue := rfl
@[simp, grind =] theorem finish_handles : (s.finish t handle).handles = s.handles := rfl
@[simp, grind =] theorem finish_created : (s.finish t handle).created = s.created := rfl
@[simp, grind =] theorem finish_calls :
    (s.finish t handle).calls = s.calls.erase (t, handle) := rfl
@[simp, grind =] theorem finish_received : (s.finish t handle).received = s.received := rfl
@[simp, grind =] theorem finish_added : (s.finish t handle).added = s.added := rfl
@[simp, grind =] theorem finish_returned : (s.finish t handle).returned = s.returned := rfl

end Fields

/-- The effects of one step. -/
inductive Moves (overflowChecks : Bool) (s : State Thread) : Action Thread → State Thread → Prop
    where
  | add {t handle v} (idle : s.pc t = .idle) (alive : handle ∈ s.handles) :
      Moves overflowChecks s (.add t handle v)
        ({ s with calls := (t, handle) :: s.calls }.goto t (.fetchOr handle v false))
  | clone {t handle} (idle : s.pc t = .idle) (alive : handle ∈ s.handles) :
      Moves overflowChecks s (.clone t handle)
        ({ s with calls := (t, handle) :: s.calls }.goto t (.fetchOr handle 1 true))
  | wait {t handle} (idle : s.pc t = .idle) (alive : handle ∈ s.handles) :
      Moves overflowChecks s (.wait t handle)
        ({ s with calls := (t, handle) :: s.calls }.goto t (.load handle))
  | fetchOr {t handle v cloning} (here : s.pc t = .fetchOr handle v cloning) :
      Moves overflowChecks s (.step t) (s.goto t (.store handle v cloning s.total))
  | panic {t handle v cloning current} (here : s.pc t = .store handle v cloning current)
      (checked : overflowChecks = true) (wraps : 2 ^ 64 ≤ current.toNat + v.toNat) :
      Moves overflowChecks s (.step t) (s.finish t handle)
  | store {t handle v current} (here : s.pc t = .store handle v false current)
      (fits : overflowChecks = true → current.toNat + v.toNat < 2 ^ 64) :
      Moves overflowChecks s (.step t)
        ({ s with total := current + v, added := s.added + v.toNat }.finish t handle)
  | storeClone {t handle v current} (here : s.pc t = .store handle v true current)
      (fits : overflowChecks = true → current.toNat + v.toNat < 2 ^ 64) :
      Moves overflowChecks s (.step t)
        ({ s with total := current + v, added := s.added + v.toNat }.goto t (.build handle))
  | build {t handle} (here : s.pc t = .build handle) :
      Moves overflowChecks s (.step t)
        ({ s with handles := s.created :: s.handles, created := s.created + 1 }.finish t handle)
  | loadZero {t handle} (here : s.pc t = .load handle) (zero : s.total = 0) :
      Moves overflowChecks s (.step t) (s.goto t (.leave handle s.created))
  | loadNonzero {t handle} (here : s.pc t = .load handle) (nonzero : s.total ≠ 0) :
      Moves overflowChecks s (.step t) (s.goto t (.recv handle 0))
  | receive {t handle current queue} (here : s.pc t = .recv handle current)
      (sent : s.queue = queue + 1) :
      Moves overflowChecks s (.step t)
        ({ s with queue := queue, received := s.received + 1 }.goto t
          (.compare handle (current + 1)))
  | disconnected {t handle current} (here : s.pc t = .recv handle current) (empty : s.queue = 0)
      (senders : s.handles = []) :
      Moves overflowChecks s (.step t) (s.goto t (.leave handle s.created))
  | enough {t handle current} (here : s.pc t = .compare handle current)
      (reached : s.total ≤ current) :
      Moves overflowChecks s (.step t) (s.goto t (.leave handle s.created))
  | more {t handle current} (here : s.pc t = .compare handle current)
      (below : ¬ s.total ≤ current) :
      Moves overflowChecks s (.step t) (s.goto t (.recv handle current))
  | leave {t handle seen} (here : s.pc t = .leave handle seen) :
      Moves overflowChecks s (.step t) ({ s with returned := t :: s.returned }.finish t handle)
  | cancel {t handle current} (here : s.pc t = .recv handle current) :
      Moves overflowChecks s (.cancel t) (s.finish t handle)
  | drop {handle} (alive : handle ∈ s.handles) (free : s.Free handle) :
      Moves overflowChecks s (.drop handle)
        { s with handles := s.handles.erase handle, queue := s.queue + 1 }

variable {overflowChecks : Bool} {s next : State Thread} {action : Action Thread}

theorem moves_of_advance {t : Thread} (advanced : s.advance overflowChecks t = some next) :
    Moves overflowChecks s (.step t) next := by
  unfold advance at advanced
  split at advanced
  case h_1 handle v cloning here => exact Option.some.inj advanced ▸ .fetchOr here
  case h_2 handle v cloning current here =>
    split at advanced
    case isTrue wraps => exact Option.some.inj advanced ▸ .panic here wraps.1 wraps.2
    case isFalse fits =>
      have fits : overflowChecks = true → current.toNat + v.toNat < 2 ^ 64 := by
        intro checked
        simpa [checked] using fits
      cases cloning with
      | true => exact Option.some.inj advanced ▸ .storeClone here fits
      | false => exact Option.some.inj advanced ▸ .store here fits
  case h_3 handle here => exact Option.some.inj advanced ▸ .build here
  case h_4 handle here =>
    cases advanced
    split
    case isTrue zero => exact .loadZero here zero
    case isFalse nonzero => exact .loadNonzero here nonzero
  case h_5 handle current here =>
    split at advanced
    case h_1 queue sent => exact Option.some.inj advanced ▸ .receive here sent
    case h_2 empty =>
      obtain ⟨senders, ⟨⟩⟩ := Option.ite_none_right_eq_some.mp advanced
      exact .disconnected here empty senders
  case h_6 handle current here =>
    cases advanced
    split
    case isTrue reached => exact .enough here reached
    case isFalse below => exact .more here below
  case h_7 handle seen here => exact Option.some.inj advanced ▸ .leave here
  case h_8 => cases advanced

/-- Every step has one of the listed effects. -/
theorem moves_of_step (stepped : s.step overflowChecks action = some next) :
    Moves overflowChecks s action next := by
  cases action with
  | add t handle v =>
      obtain ⟨⟨idle, alive⟩, ⟨⟩⟩ := Option.ite_none_right_eq_some.mp stepped
      exact .add idle alive
  | clone t handle =>
      obtain ⟨⟨idle, alive⟩, ⟨⟩⟩ := Option.ite_none_right_eq_some.mp stepped
      exact .clone idle alive
  | wait t handle =>
      obtain ⟨⟨idle, alive⟩, ⟨⟩⟩ := Option.ite_none_right_eq_some.mp stepped
      exact .wait idle alive
  | step t => exact moves_of_advance stepped
  | cancel t =>
      simp only [step] at stepped
      split at stepped
      case h_1 handle current here => exact Option.some.inj stepped ▸ .cancel here
      case h_2 => cases stepped
  | drop handle =>
      obtain ⟨⟨alive, free⟩, ⟨⟩⟩ := Option.ite_none_right_eq_some.mp stepped
      exact .drop alive free

/-- Every listed effect is a step. -/
theorem step_of_moves (move : Moves overflowChecks s action next) :
    s.step overflowChecks action = some next := by
  cases move with
  | add idle alive | clone idle alive | wait idle alive => exact if_pos ⟨idle, alive⟩
  | drop alive free => exact if_pos ⟨alive, free⟩
  | cancel here => simp only [step, here]
  | panic here checked wraps =>
      simp only [step, advance, here]
      exact if_pos ⟨checked, wraps⟩
  | store here fits | storeClone here fits =>
      simp only [step, advance, here]
      exact if_neg fun wraps => Nat.not_le.mpr (fits wraps.1) wraps.2
  | disconnected here empty senders => simp only [step, advance, here, empty, if_pos senders]
  | loadZero here zero => simp only [step, advance, here, if_pos zero]
  | loadNonzero here nonzero => simp only [step, advance, here, if_neg nonzero]
  | enough here reached => simp only [step, advance, here, if_pos reached]
  | more here below => simp only [step, advance, here, if_neg below]
  | receive here sent => simp only [step, advance, here, sent]
  | fetchOr here | build here | leave here => simp only [step, advance, here]

namespace Sound

variable (sound : s.Sound)
include sound

theorem calling_preserved (move : Moves overflowChecks s action next) (t : Thread) (handle : Nat)
    (calling : (next.pc t).handle = some handle) : (t, handle) ∈ next.calls := by
  have old := sound.calling t handle
  have kept (u : Thread) (other : Nat) (different : t ≠ u) (member : (t, handle) ∈ s.calls) :
      (t, handle) ∈ s.calls.erase (u, other) :=
    (List.mem_erase_of_ne (by simp [different])).mpr member
  cases move <;> grind

theorem called_preserved (move : Moves overflowChecks s action next) :
    ∀ call ∈ next.calls, (next.pc call.1).handle = some call.2 := by
  have old := sound.called
  -- The call of a thread that returns is listed once.
  have gone (t : Thread) (handle : Nat) (here : (s.pc t).handle = some handle) :
      ∀ call ∈ s.calls.erase (t, handle), call.1 ≠ t := by
    intro call member same
    have listed := old call (List.mem_of_mem_erase member)
    rw [same, here, Option.some.injEq] at listed
    have entry : call = (t, handle) := Prod.ext same listed.symm
    exact sound.calls_nodup.not_mem_erase (entry ▸ member)
  cases move with
  | drop => exact old
  | add | clone | wait => grind
  | fetchOr | storeClone | loadZero | loadNonzero | receive | disconnected | enough | more => grind
  | panic here | store here | build here | leave here | cancel here =>
      have gone := gone _ _ (by rw [here]; rfl)
      intro call member
      rw [finish_calls] at member
      rw [finish_pc_apply, if_neg (gone call member)]
      exact old call (List.mem_of_mem_erase member)

theorem calls_nodup_preserved (move : Moves overflowChecks s action next) : next.calls.Nodup := by
  have old := sound.calls_nodup
  have called := sound.called
  cases move with
  | add idle | clone idle | wait idle =>
      refine List.nodup_cons.mpr ⟨fun member => ?_, old⟩
      have busy := called _ member
      rw [idle] at busy
      cases busy
  | panic | store | build | leave | cancel => exact old.erase _
  | _ => exact old

theorem borrowed_preserved (move : Moves overflowChecks s action next) (t : Thread)
    (handle : Nat) (calling : (next.pc t).handle = some handle) : handle ∈ next.handles := by
  have old := sound.borrowed t handle
  cases move with
  | @drop dropped alive free =>
      have different : handle ≠ dropped := free _ (sound.calling t handle calling)
      exact (List.mem_erase_of_ne different).mpr (old calling)
  | _ => grind

theorem preserved (move : Moves overflowChecks s action next) : next.Sound where
  calling := sound.calling_preserved move
  called := sound.called_preserved move
  calls_nodup := sound.calls_nodup_preserved move
  borrowed := sound.borrowed_preserved move
  handles_lt := by
    have old := sound.handles_lt
    cases move with
    | drop alive free => exact fun handle member => old handle (List.mem_of_mem_erase member)
    | _ => grind
  handles_nodup := by
    have old := sound.handles_nodup
    have below := sound.handles_lt
    cases move with
    | drop alive free => exact old.erase _
    | build here =>
        exact List.nodup_cons.mpr ⟨fun member => Nat.lt_irrefl _ (below _ member), old⟩
    | _ => exact old
  messages := by
    have old := sound.messages
    cases move with
    | drop alive free =>
        have length := List.length_erase_of_mem alive
        have some := List.length_pos_of_mem alive
        change s.queue + 1 + s.received + (s.handles.erase _).length = s.created
        omega
    | receive here sent =>
        simp only [goto_queue, goto_received, goto_handles, goto_created]
        omega
    | build here =>
        change s.queue + s.received + (s.handles.length + 1) = s.created + 1
        omega
    | _ => exact old

omit [DecidableEq Thread] in
/-- Between calls no handle is borrowed. -/
theorem calls_eq_nil (idle : ∀ t, s.pc t = .idle) : s.calls = [] := by
  refine List.eq_nil_iff_forall_not_mem.mpr fun call member => ?_
  have busy := sound.called call member
  rw [idle] at busy
  cases busy

end Sound

theorem Sound.of_continues (sound : s.Sound)
    (continues : (waitGroup overflowChecks Thread).Continues s next) : next.Sound :=
  continues.preserves Sound (fun _ _ _ sound move => sound.preserved (moves_of_step move)) sound

theorem sound_of_reachable (reachable : (waitGroup overflowChecks Thread).Reachable s) :
    s.Sound :=
  reachable.invariant Sound (fun _ start => start ▸ .new)
    fun _ _ _ _ sound move => sound.preserved (moves_of_step move)

end State

end DarkStd.WaitGroup
