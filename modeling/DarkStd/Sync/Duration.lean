import Mathlib.Order.Bounds.Defs
import DarkStd.Semantics.Word

/-!
# AtomicDuration

A timeout in whole milliseconds in one `usize`, with 0 for none. A fraction of
a millisecond counts as a whole one, and what `u64` cannot hold saturates. The
cast to `usize` cuts the result to the word, and a duration that leaves the
word at 0 reads back as no timeout.
-/

namespace DarkStd.Sync

open DarkStd.Semantics

/-- `std::time::Duration`: whole seconds, and the nanoseconds below a second. -/
structure Duration where
  secs : BitVec 64
  nanos : BitVec 32
  nanos_lt : nanos.toNat < 1000000000
deriving DecidableEq

namespace Duration

/-- The length in nanoseconds. -/
def asNanos (d : Duration) : Nat := d.secs.toNat * 1000000000 + d.nanos.toNat

/-- `Duration::ZERO` -/
def zero : Duration := ⟨0, 0, by decide⟩

theorem toNat_subsecNanos (millis : BitVec 64) :
    ((millis % 1000).setWidth 32 * 1000000 : BitVec 32).toNat = millis.toNat % 1000 * 1000000 := by
  have thousand : (1000 : BitVec 64).toNat = 1000 := rfl
  have million : (1000000 : BitVec 32).toNat = 1000000 := rfl
  rw [BitVec.toNat_mul, BitVec.toNat_setWidth, BitVec.toNat_umod, thousand, million]
  omega

/-- `Duration::from_millis` -/
def fromMillis (millis : BitVec 64) : Duration where
  secs := millis / 1000
  nanos := (millis % 1000).setWidth 32 * 1000000
  nanos_lt := by
    rw [toNat_subsecNanos]
    omega

/-- The derived order: by the seconds, then by the nanoseconds. -/
instance : LE Duration := ⟨fun d e => d.secs < e.secs ∨ d.secs = e.secs ∧ d.nanos ≤ e.nanos⟩

theorem le_iff {d e : Duration} : d ≤ e ↔ d.asNanos ≤ e.asNanos := by
  have below := d.nanos_lt
  have above := e.nanos_lt
  change d.secs < e.secs ∨ d.secs = e.secs ∧ d.nanos ≤ e.nanos ↔ _
  rw [BitVec.lt_def, BitVec.le_def, ← BitVec.toNat_inj]
  unfold asNanos
  omega

theorem asNanos_fromMillis (millis : BitVec 64) :
    (fromMillis millis).asNanos = millis.toNat * 1000000 := by
  rw [asNanos, fromMillis, toNat_subsecNanos, BitVec.toNat_udiv]
  simp
  omega

theorem asNanos_eq_zero {d : Duration} : d.asNanos = 0 ↔ d = zero := by
  constructor
  · intro none
    obtain ⟨secs, nanos, below⟩ := d
    have secs_eq : secs = 0 := BitVec.eq_of_toNat_eq (by simp [asNanos] at none ⊢; omega)
    have nanos_eq : nanos = 0 := BitVec.eq_of_toNat_eq (by simp [asNanos] at none ⊢; omega)
    subst secs_eq nanos_eq
    rfl
  · rintro rfl
    rfl

/-- The least number of milliseconds that is as long as the duration. -/
def ceilMillis (d : Duration) : Nat := (d.asNanos + 999999) / 1000000

theorem isLeast_ceilMillis (d : Duration) :
    IsLeast {millis : Nat | d.asNanos ≤ millis * 1000000} d.ceilMillis := by
  constructor
  · change d.asNanos ≤ (d.asNanos + 999999) / 1000000 * 1000000
    omega
  · intro millis enough
    change d.asNanos ≤ millis * 1000000 at enough
    unfold ceilMillis
    omega

end Duration

/-- `dur_to_ms`; `none` where an operation without saturation overflows. -/
def durToMs (dur : Duration) : Option (BitVec 64) := do
  let ns := dur.nanos.setWidth 64
  let ms := (← Word.checkedSub (← Word.checkedAdd ns 1000000) 1) / 1000000
  some (Word.saturatingAdd (Word.saturatingMul dur.secs 1000) ms)

/-- No operation of `dur_to_ms` overflows, and saturating twice is capping the
exact number of milliseconds. -/
theorem durToMs_eq (d : Duration) :
    ∃ ms, durToMs d = some ms ∧ ms.toNat = min d.ceilMillis (2 ^ 64 - 1) := by
  have below := d.nanos_lt
  have million : (1000000 : BitVec 64).toNat = 1000000 := rfl
  have ns : (d.nanos.setWidth 64).toNat = d.nanos.toNat := by
    rw [BitVec.toNat_setWidth, Nat.mod_eq_of_lt (by omega)]
  have added : Word.checkedAdd (d.nanos.setWidth 64) 1000000 =
      some (BitVec.ofNat 64 (d.nanos.toNat + 1000000)) := by
    rw [Word.checkedAdd_of_lt (by omega), ns, million]
  have sum : (BitVec.ofNat 64 (d.nanos.toNat + 1000000)).toNat = d.nanos.toNat + 1000000 := by
    rw [BitVec.toNat_ofNat, Nat.mod_eq_of_lt (by omega)]
  have lowered : Word.checkedSub (BitVec.ofNat 64 (d.nanos.toNat + 1000000)) 1 =
      some (BitVec.ofNat 64 (d.nanos.toNat + 999999)) := by
    have one : (1 : BitVec 64).toNat = 1 := rfl
    rw [Word.checkedSub_of_le (by omega), sum, one, Nat.add_sub_assoc (by decide)]
  have ms : (BitVec.ofNat 64 (d.nanos.toNat + 999999) / 1000000).toNat =
      (d.nanos.toNat + 999999) / 1000000 := by
    rw [BitVec.toNat_udiv, BitVec.toNat_ofNat, million, Nat.mod_eq_of_lt (by omega)]
  have thousand : (1000 : BitVec 64).toNat = 1000 := rfl
  refine ⟨_, by rw [durToMs, added, Option.bind_eq_bind, Option.bind_some, lowered]; rfl, ?_⟩
  rw [Word.toNat_saturatingAdd, Word.toNat_saturatingMul, ms, thousand]
  unfold Duration.ceilMillis Duration.asNanos
  omega

/-- `AtomicDuration`, in a `usize` of `w` bits. -/
structure AtomicDuration (w : Nat) where
  word : BitVec w
deriving DecidableEq

namespace AtomicDuration

variable {w : Nat}

/-- The word for a duration, in `new` and in `store`. -/
def encode (w : Nat) : Option Duration → Option (BitVec w)
  | none => some 0
  | some d => (durToMs d).map (·.setWidth w)

/-- The duration for a word, in `get` and in `take`. -/
def decode (word : BitVec w) : Option Duration :=
  if word = 0 then none else some (.fromMillis (word.setWidth 64))

def new (w : Nat) (dur : Option Duration) : Option (AtomicDuration w) := (encode w dur).map .mk

def get (a : AtomicDuration w) : Option Duration := decode a.word

def store (_ : AtomicDuration w) (dur : Option Duration) : Option (AtomicDuration w) :=
  (encode w dur).map .mk

/-- `take`: `self.0.swap(0)` -/
def take (a : AtomicDuration w) : Option Duration × AtomicDuration w := (decode a.word, ⟨0⟩)

def intoInner (a : AtomicDuration w) : Option Duration := a.take.1

/-- What a stored duration leaves in the word. -/
theorem encode_some (w : Nat) (d : Duration) : ∃ word, encode w (some d) = some word ∧
    word.toNat = min d.ceilMillis (2 ^ 64 - 1) % 2 ^ w := by
  obtain ⟨ms, computed, exact_⟩ := durToMs_eq d
  exact ⟨ms.setWidth w, by rw [encode, computed, Option.map_some], by
    rw [BitVec.toNat_setWidth, exact_]⟩

theorem exists_encode (w : Nat) (dur : Option Duration) : ∃ word, encode w dur = some word := by
  cases dur with
  | none => exact ⟨0, rfl⟩
  | some d =>
      obtain ⟨word, encoded, -⟩ := encode_some w d
      exact ⟨word, encoded⟩

theorem decode_eq_none {word : BitVec w} : decode word = none ↔ word = 0 := by
  unfold decode
  split <;> simp_all

/-- The least number of milliseconds is none for the zero duration only. -/
theorem ceilMillis_eq_zero {d : Duration} : d.ceilMillis = 0 ↔ d = .zero := by
  rw [← Duration.asNanos_eq_zero]
  unfold Duration.ceilMillis
  omega

/-- In a word of 64 bits the number of milliseconds is capped, not cut. -/
theorem encode_decode {d : Duration} (nonzero : d ≠ .zero) : ∃ word e,
    encode 64 (some d) = some word ∧ decode word = some e ∧
      e.asNanos = min d.ceilMillis (2 ^ 64 - 1) * 1000000 := by
  obtain ⟨word, encoded, value⟩ := encode_some 64 d
  have positive := mt ceilMillis_eq_zero.mp nonzero
  rw [Nat.mod_eq_of_lt (by omega)] at value
  have present : word ≠ 0 := by
    rintro rfl
    simp at value
    omega
  refine ⟨word, .fromMillis word, encoded, ?_, ?_⟩
  · rw [decode, if_neg present, BitVec.setWidth_eq]
  · rw [Duration.asNanos_fromMillis, value]

/-- Every word is the encoding of what it decodes to. -/
theorem encode_of_decode (word : BitVec 64) : encode 64 (decode word) = some word := by
  unfold decode
  split
  case isTrue none => rw [encode, none]
  case isFalse present =>
    obtain ⟨again, encoded, value⟩ := encode_some 64 (.fromMillis (word.setWidth 64))
    rw [encoded]
    refine congrArg some (BitVec.eq_of_toNat_eq ?_)
    have bound := word.isLt
    have ceil : (Duration.fromMillis (word.setWidth 64)).ceilMillis = word.toNat := by
      rw [Duration.ceilMillis, Duration.asNanos_fromMillis, BitVec.setWidth_eq]
      omega
    rw [value, ceil]
    omega

end AtomicDuration

open AtomicDuration

/-- On a 64-bit target a stored duration reads back as the least whole number of
milliseconds that is as long, or as the longest one a word can say. -/
structure RoundsUp (d e : Duration) : Prop where
  computed : (durToMs d).isSome
  new : (AtomicDuration.new 64 (some d)).map AtomicDuration.get = some (some e)
  store : ∀ a : AtomicDuration 64, (a.store (some d)).map AtomicDuration.get = some (some e)
  capped : ∃ millis, IsLeast {millis : Nat | d.asNanos ≤ millis * 1000000} millis ∧
    e.asNanos = min millis (2 ^ 64 - 1) * 1000000 ∧
    (millis ≤ 2 ^ 64 - 1 → d ≤ e ∧ e.asNanos < d.asNanos + 1000000)

theorem exists_roundsUp {d : Duration} (nonzero : d ≠ .zero) : ∃ e, RoundsUp d e := by
  obtain ⟨word, e, encoded, decoded, nanos⟩ := encode_decode nonzero
  obtain ⟨ms, computed, -⟩ := durToMs_eq d
  refine ⟨e, ?_, ?_, fun a => ?_, d.ceilMillis, d.isLeast_ceilMillis, nanos, fun below => ?_⟩
  · rw [computed]
    rfl
  · simp only [AtomicDuration.new, encoded, Option.map_some, AtomicDuration.get, decoded]
  · simp only [AtomicDuration.store, encoded, Option.map_some, AtomicDuration.get, decoded]
  · rw [Duration.le_iff, nanos, Nat.min_eq_left below]
    unfold Duration.ceilMillis
    omega

/-- `AtomicDuration` rounds every nonzero duration up to whole milliseconds, keeps
their order, and gives back every word it is given. -/
theorem atomic_duration_rounds_up :
    (∀ d, d ≠ Duration.zero → ∃ e, RoundsUp d e) ∧
    (∀ d₁ d₂ e₁ e₂, RoundsUp d₁ e₁ → RoundsUp d₂ e₂ → d₁ ≤ d₂ → e₁ ≤ e₂) ∧
    ∀ a : AtomicDuration 64, a.store a.get = some a := by
  refine ⟨fun d => exists_roundsUp, ?_, fun a => ?_⟩
  · intro d₁ d₂ e₁ e₂ first second shorter
    obtain ⟨m₁, least₁, nanos₁, -⟩ := first.capped
    obtain ⟨m₂, least₂, nanos₂, -⟩ := second.capped
    rw [Duration.le_iff] at shorter ⊢
    have order : m₁ ≤ m₂ := least₁.2 (Nat.le_trans shorter least₂.1)
    rw [nanos₁, nanos₂]
    omega
  · simp only [AtomicDuration.store, AtomicDuration.get, encode_of_decode, Option.map_some]

/-- A nanosecond below a second is a second. -/
theorem last_nanosecond_rounds_up : ∃ e,
    RoundsUp ⟨0, 999999999, by decide⟩ e ∧ Duration.zero ≤ e := by
  obtain ⟨e, rounds⟩ := atomic_duration_rounds_up.1 ⟨0, 999999999, by decide⟩ (by decide)
  exact ⟨e, rounds, Duration.le_iff.mpr (Nat.zero_le _)⟩

/-- `new(first)`, and then a `store` of each of the others. -/
def AtomicDuration.stores (w : Nat) (first : Option Duration) (rest : List (Option Duration)) :
    Option (AtomicDuration w) :=
  rest.foldl (fun a dur => a.bind (·.store dur)) (AtomicDuration.new w first)

/-- The last value that was stored. -/
def lastStored (first : Option Duration) (rest : List (Option Duration)) : Option Duration :=
  rest.getLast?.getD first

/-- A duration whose milliseconds, capped, are a multiple of `2 ^ w` looks like none. -/
def LostIn (w : Nat) (d : Duration) : Prop := 2 ^ w ∣ min d.ceilMillis (2 ^ 64 - 1)

theorem encode_some_eq_zero (w : Nat) (d : Duration) : encode w (some d) = some 0 ↔ LostIn w d := by
  obtain ⟨word, encoded, value⟩ := encode_some w d
  rw [encoded, Option.some_inj, ← BitVec.toNat_inj, value, LostIn, Nat.dvd_iff_mod_eq_zero]
  rfl

theorem lostIn_64 (d : Duration) : LostIn 64 d ↔ d = .zero := by
  rw [← ceilMillis_eq_zero, LostIn, Nat.dvd_iff_mod_eq_zero]
  omega

theorem lostIn_32 (d : Duration) :
    LostIn 32 d ↔ 2 ^ 32 ∣ d.ceilMillis ∧ d.ceilMillis < 2 ^ 64 := by
  rw [LostIn, Nat.dvd_iff_mod_eq_zero, Nat.dvd_iff_mod_eq_zero]
  omega

/-- A store forgets what was there before. -/
theorem stores_eq (w : Nat) (first : Option Duration) (rest : List (Option Duration)) :
    AtomicDuration.stores w first rest = AtomicDuration.new w (lastStored first rest) := by
  induction rest using List.reverseRecOn with
  | nil => rfl
  | append_singleton rest last inductionHypothesis =>
      obtain ⟨word, encoded⟩ := exists_encode w (lastStored first rest)
      rw [AtomicDuration.stores] at inductionHypothesis
      rw [AtomicDuration.stores, List.foldl_append, inductionHypothesis, AtomicDuration.new,
        encoded, lastStored, List.getLast?_concat]
      rfl

/-- A word reads back as none exactly when the last value stored was none or is
lost in it. -/
theorem decode_encode_eq_none {w : Nat} {dur : Option Duration} {word : BitVec w}
    (encoded : encode w dur = some word) :
    (decode word = none ↔ dur = none) ↔ ∀ d, dur = some d → ¬ LostIn w d := by
  rw [decode_eq_none]
  cases dur with
  | none =>
      cases encoded
      simp
  | some d =>
      have lost := encode_some_eq_zero w d
      rw [encoded, Option.some_inj] at lost
      simpa using not_congr lost

/-- Whatever was stored before, `get` and `take` tell none and some apart exactly
when the last duration is not lost in the word. In 64 bits only the zero
duration is lost, in 32 bits every multiple of `2 ^ 32` milliseconds that does
not saturate. -/
theorem none_kept_apart_iff (w : Nat) (first : Option Duration) (rest : List (Option Duration)) :
    (∃ a, AtomicDuration.stores w first rest = some a ∧
      ((a.get = none ↔ lastStored first rest = none) ↔
        ∀ d, lastStored first rest = some d → ¬ LostIn w d) ∧
      ((a.take.1 = none ↔ lastStored first rest = none) ↔
        ∀ d, lastStored first rest = some d → ¬ LostIn w d)) ∧
    (∀ d, LostIn 64 d ↔ d = .zero) ∧
    ∀ d, LostIn 32 d ↔ 2 ^ 32 ∣ d.ceilMillis ∧ d.ceilMillis < 2 ^ 64 := by
  obtain ⟨word, encoded⟩ := exists_encode w (lastStored first rest)
  have exact_ := decode_encode_eq_none encoded
  refine ⟨⟨⟨word⟩, ?_, exact_, exact_⟩, lostIn_64, lostIn_32⟩
  rw [stores_eq, AtomicDuration.new, encoded, Option.map_some]

/-- The zero duration is lost in 64 bits, and `2 ^ 32` milliseconds in 32 bits. -/
theorem durations_lost :
    (¬ ∀ first rest a, AtomicDuration.stores 64 first rest = some a →
      (a.get = none ↔ lastStored first rest = none)) ∧
    ¬ ∀ first rest a, AtomicDuration.stores 32 first rest = some a →
      (a.get = none ↔ lastStored first rest = none) := by
  constructor
  · intro apart
    have none := (apart (some .zero) [] ⟨0⟩ (by decide)).mp rfl
    cases none
  · intro apart
    have none := (apart (some (.fromMillis 4294967296)) [] ⟨0⟩ (by decide)).mp rfl
    cases none

end DarkStd.Sync
