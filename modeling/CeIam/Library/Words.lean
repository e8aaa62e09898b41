import Mathlib.Algebra.Group.Int.Defs
import Mathlib.Algebra.Group.Nat.Defs
import Mathlib.Data.Int.Order.Basic

/-! # Signed words

Signed words of 64 bits as integers. Arithmetic on them has no result when it overflows. -/

namespace CeIam.Words

/-- The result of an operation, unless it overflows. -/
def checked (n : ℤ) : Option ℤ := if -2 ^ 63 ≤ n ∧ n < 2 ^ 63 then some n else none

/-- An operation whose result is a word does not overflow. -/
theorem checked_eq {n m : ℤ} (h : n = m) (hlow : -2 ^ 63 ≤ m) (hhigh : m < 2 ^ 63) :
    checked n = some m := by
  rw [h]
  exact if_pos ⟨hlow, hhigh⟩

/-- A computation goes on with a result that is a word. -/
theorem checked_bind {α : Type} {n m : ℤ} {f : ℤ → Option α} {r : Option α} (h : n = m)
    (hlow : -2 ^ 63 ≤ m) (hhigh : m < 2 ^ 63) (hrest : f m = r) : (checked n >>= f) = r := by
  rw [checked_eq h hlow hhigh]
  exact hrest

/-- A cast from unsigned to signed words keeps the lower half. -/
theorem toInt_toInt64 (n : UInt64) :
    n.toInt64.toInt = if n.toNat < 2 ^ 63 then (n.toNat : ℤ) else n.toNat - 2 ^ 64 := by
  change n.toBitVec.toInt = _
  rw [BitVec.toInt_eq_toNat_cond]
  change (if 2 * n.toNat < 2 ^ 64 then (n.toNat : ℤ) else n.toNat - (2 ^ 64 : ℕ)) = _
  split_ifs <;> omega

theorem toNat_ofInt {n : ℕ} (h : n < 2 ^ 32) : (UInt32.ofInt n).toNat = n := by
  have hmod : ((n : ℤ) % 2 ^ 32).toNat = n := by omega
  rw [UInt32.ofInt, hmod, UInt32.toNat_ofNat_of_lt' h]

end CeIam.Words
