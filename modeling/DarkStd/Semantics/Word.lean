import Mathlib.Data.BitVec

/-!
# Arithmetic of machine words

Checked operations fail where the exact result does not fit; saturating ones
return the bound there.
-/

namespace DarkStd.Semantics.Word

variable {w : Nat}

/-- `a + b` in a build with overflow checks. -/
def checkedAdd (a b : BitVec w) : Option (BitVec w) :=
  if a.toNat + b.toNat < 2 ^ w then some (a + b) else none

/-- `a - b` in a build with overflow checks. -/
def checkedSub (a b : BitVec w) : Option (BitVec w) :=
  if b.toNat ≤ a.toNat then some (a - b) else none

def saturatingAdd (a b : BitVec w) : BitVec w :=
  if a.toNat + b.toNat < 2 ^ w then a + b else BitVec.allOnes w

def saturatingMul (a b : BitVec w) : BitVec w :=
  if a.toNat * b.toNat < 2 ^ w then a * b else BitVec.allOnes w

theorem checkedAdd_of_lt {a b : BitVec w} (fits : a.toNat + b.toNat < 2 ^ w) :
    checkedAdd a b = some (BitVec.ofNat w (a.toNat + b.toNat)) := by
  rw [checkedAdd, if_pos fits, BitVec.ofNat_add, BitVec.ofNat_toNat, BitVec.ofNat_toNat,
    BitVec.setWidth_eq, BitVec.setWidth_eq]

theorem checkedSub_of_le {a b : BitVec w} (fits : b.toNat ≤ a.toNat) :
    checkedSub a b = some (BitVec.ofNat w (a.toNat - b.toNat)) := by
  rw [checkedSub, if_pos fits]
  refine congrArg some (BitVec.eq_of_toNat_eq ?_)
  rw [BitVec.toNat_sub_of_le (BitVec.le_def.mpr fits), BitVec.toNat_ofNat,
    Nat.mod_eq_of_lt (Nat.lt_of_le_of_lt (Nat.sub_le ..) a.isLt)]

theorem toNat_saturatingAdd (a b : BitVec w) :
    (saturatingAdd a b).toNat = min (a.toNat + b.toNat) (2 ^ w - 1) := by
  have positive := Nat.two_pow_pos w
  unfold saturatingAdd
  split
  case isTrue fits =>
    rw [BitVec.toNat_add_of_lt fits]
    omega
  case isFalse tooLarge =>
    rw [BitVec.toNat_allOnes]
    omega

theorem toNat_saturatingMul (a b : BitVec w) :
    (saturatingMul a b).toNat = min (a.toNat * b.toNat) (2 ^ w - 1) := by
  have positive := Nat.two_pow_pos w
  unfold saturatingMul
  split
  case isTrue fits =>
    rw [BitVec.toNat_mul, Nat.mod_eq_of_lt fits]
    omega
  case isFalse tooLarge =>
    rw [BitVec.toNat_allOnes]
    omega

end DarkStd.Semantics.Word
