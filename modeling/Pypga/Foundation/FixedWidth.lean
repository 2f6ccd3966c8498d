/- GID: Pypga/Foundation/FixedWidth
   generality: G
   digest: Unsigned truncation of integers to a number of bits. -/

import Mathlib.Data.Int.Init
import Mathlib.Algebra.Order.Ring.Int
import Mathlib.Tactic.Positivity

set_option autoImplicit false
set_option relaxedAutoImplicit false

namespace Pypga.Foundation.FixedWidth

/-- The low `w` bits of an integer, read as an unsigned number. -/
def trunc (w : ℕ) (x : ℤ) : ℕ := (x % 2 ^ w).toNat

theorem trunc_cast (w : ℕ) (x : ℤ) : (trunc w x : ℤ) = x % 2 ^ w := by
  have positive : (0 : ℤ) < 2 ^ w := by positivity
  exact Int.toNat_of_nonneg (Int.emod_nonneg _ positive.ne')

theorem trunc_lt (w : ℕ) (x : ℤ) : trunc w x < 2 ^ w := by
  have positive : (0 : ℤ) < 2 ^ w := by positivity
  have bound := Int.emod_lt_of_pos x positive
  rw [← trunc_cast] at bound
  exact_mod_cast bound

theorem trunc_of_fits {w n : ℕ} (fits : n < 2 ^ w) : trunc w (n : ℤ) = n := by
  have wide : (n : ℤ) < 2 ^ w := by exact_mod_cast fits
  rw [trunc, Int.emod_eq_of_lt (Int.natCast_nonneg n) wide]
  rfl

theorem trunc_add (w : ℕ) (x y : ℤ) : trunc w (trunc w x + y) = trunc w (x + y) := by
  show ((trunc w x + y) % 2 ^ w).toNat = _
  rw [trunc_cast, Int.emod_add_emod]
  rfl

theorem trunc_trunc {w v : ℕ} (narrow : w ≤ v) (x : ℤ) : trunc w (trunc v x) = trunc w x := by
  show ((trunc v x : ℤ) % 2 ^ w).toNat = _
  rw [trunc_cast, Int.emod_emod_of_dvd x (pow_dvd_pow 2 narrow)]
  rfl

theorem trunc_of_nonneg {w : ℕ} {x : ℤ} (nonneg : 0 ≤ x) (fits : x < 2 ^ w) : (trunc w x : ℤ) = x := by
  rw [trunc_cast, Int.emod_eq_of_lt nonneg fits]

theorem trunc_of_neg {w : ℕ} {x : ℤ} (fits : -2 ^ w ≤ x) (negative : x < 0) :
    (trunc w x : ℤ) = x + 2 ^ w := by
  rw [trunc_cast, ← Int.add_emod_right, Int.emod_eq_of_lt (by omega) (by omega)]

theorem trunc_pred {w n : ℕ} (positive : 0 < n) (fits : n < 2 ^ w) :
    trunc w ((n : ℤ) - 1) = n - 1 := by
  have cast : (n : ℤ) - 1 = ((n - 1 : ℕ) : ℤ) := by omega
  rw [cast, trunc_of_fits (by omega)]

theorem trunc_neg_one (w : ℕ) : trunc w (-1) = 2 ^ w - 1 := by
  have positive : (0 : ℤ) < 2 ^ w := by positivity
  have wrapped : (-1 : ℤ) % 2 ^ w = 2 ^ w - 1 := by
    rw [← Int.add_emod_right, Int.emod_eq_of_lt] <;> omega
  have cast : (trunc w (-1) : ℤ) = 2 ^ w - 1 := by rw [trunc_cast, wrapped]
  have natural : ((2 ^ w - 1 : ℕ) : ℤ) = 2 ^ w - 1 := by
    rw [Nat.cast_sub Nat.one_le_two_pow]
    norm_cast
  exact_mod_cast cast.trans natural.symm

end Pypga.Foundation.FixedWidth
