/- GID: Pypga/Foundation/Reciprocal
   generality: G
   digest: A division as a multiplication with a truncated inverse, and its error. -/

import Mathlib.Algebra.Order.Ring.Int
import Mathlib.Tactic.Linarith
import Mathlib.Tactic.Ring

set_option autoImplicit false
set_option relaxedAutoImplicit false

namespace Pypga.Foundation.Reciprocal

/-- An inverse `f` of `P` in units of `1 / N`, which is not too large. -/
structure Inverse (N P f : ℤ) : Prop where
  unit : 0 < N
  divisor : 0 < P
  nonneg : 0 ≤ f
  under : f * P ≤ N

def remainder (N P f : ℤ) : ℤ := N - f * P

def Near (P S A : ℤ) : Prop := S - P ≤ P * A ∧ P * A ≤ S + P

private theorem product_split (N P f q j : ℤ) :
    (P * q + j) * f = q * N - q * remainder N P f + j * f := by
  rw [remainder]
  ring

section Products

variable {N P f S q lo hi : ℤ} (inverse : Inverse N P f)
include inverse

private theorem remainder_nonneg : 0 ≤ remainder N P f := by
  have under := inverse.under
  rw [remainder]
  omega

theorem product_range (least : P * lo ≤ S) (most : S ≤ P * hi) (below : lo ≤ 0) (above : 0 ≤ hi) :
    lo ≤ S * f / N ∧ S * f / N ≤ hi := by
  constructor
  · apply (Int.le_ediv_iff_mul_le inverse.unit).mpr
    calc lo * N ≤ lo * (f * P) := mul_le_mul_of_nonpos_left inverse.under below
      _ = P * lo * f := by ring
      _ ≤ S * f := mul_le_mul_of_nonneg_right least inverse.nonneg
  · apply Int.ediv_le_of_le_mul inverse.unit
    calc S * f ≤ P * hi * f := mul_le_mul_of_nonneg_right most inverse.nonneg
      _ = hi * (f * P) := by ring
      _ ≤ hi * N := mul_le_mul_of_nonneg_left inverse.under above

private theorem not_too_small (after : P * q < S) (last : S ≤ P * (q + 1))
    (few : q * remainder N P f ≤ f) :
    S - P ≤ P * (S * f / N) := by
  have product : (P * q + 1) * f ≤ S * f := mul_le_mul_of_nonneg_right after inverse.nonneg
  have whole : q ≤ S * f / N := by
    apply (Int.le_ediv_iff_mul_le inverse.unit).mpr
    rw [product_split N] at product
    omega
  have scaled : P * q ≤ P * (S * f / N) := mul_le_mul_of_nonneg_left whole inverse.divisor.le
  rw [mul_add] at last
  omega

private theorem few_of_not_too_small (close : P * q + 1 - P ≤ P * ((P * q + 1) * f / N)) :
    q * remainder N P f ≤ f := by
  have whole : q - 1 < (P * q + 1) * f / N := by
    apply lt_of_mul_lt_mul_left _ inverse.divisor.le
    rw [mul_sub]
    omega
  have product := (Int.le_ediv_iff_mul_le inverse.unit).mp (Int.le_of_sub_one_lt whole)
  rw [product_split N] at product
  omega

private theorem not_too_large (first : P * q ≤ S) (before : S < P * (q + 1))
    (few : -(q + 1) * remainder N P f < f + N) : P * (S * f / N) ≤ S + P := by
  have product : S * f ≤ (P * (q + 1) + -1) * f :=
    mul_le_mul_of_nonneg_right (Int.le_sub_one_of_lt before) inverse.nonneg
  have whole : S * f / N < q + 1 + 1 := by
    apply (Int.ediv_lt_iff_lt_mul inverse.unit).mpr
    rw [product_split N] at product
    rw [neg_mul] at few
    rw [add_mul]
    omega
  have scaled : P * (S * f / N) ≤ P * (q + 1) :=
    mul_le_mul_of_nonneg_left (Int.le_of_lt_add_one whole) inverse.divisor.le
  rw [mul_add] at scaled
  omega

private theorem few_of_not_too_large (close : P * ((P * (q + 1) + -1) * f / N) ≤ P * (q + 1) + -1 + P) :
    -(q + 1) * remainder N P f < f + N := by
  have whole : (P * (q + 1) + -1) * f / N < q + 1 + 1 := by
    apply lt_of_mul_lt_mul_left _ inverse.divisor.le
    rw [mul_add P (q + 1) 1]
    omega
  have product := (Int.ediv_lt_iff_lt_mul inverse.unit).mp whole
  rw [product_split N, add_mul (q + 1) 1 N] at product
  rw [neg_mul]
  omega

/-- Over all sums of a range that holds zero, the products are near the quotients exactly if the
remainders up to its last quotients are few enough. -/
theorem near_iff (below : lo ≤ 0) (above : 0 ≤ hi) :
    (∀ S, P * lo ≤ S → S ≤ P * hi → Near P S (S * f / N)) ↔
      (hi - 1) * remainder N P f ≤ f ∧ (-lo - 1) * remainder N P f < f + N := by
  have missing := remainder_nonneg inverse
  have divisor := inverse.divisor
  have nonneg := inverse.nonneg
  have unit := inverse.unit
  constructor
  · intro near
    constructor
    · obtain rfl | positive := above.eq_or_lt
      · omega
      · have inside : P * (hi - 1) + 1 ≤ P * hi := by
          rw [mul_sub]
          omega
        have started : 0 ≤ P * (hi - 1) := mul_nonneg divisor.le (by omega)
        have negative : P * lo ≤ 0 := mul_nonpos_of_nonneg_of_nonpos divisor.le below
        exact few_of_not_too_small inverse (near _ (by omega) inside).1
    · obtain rfl | negative := below.eq_or_lt
      · omega
      · have inside : P * lo ≤ P * (lo + 1) + -1 := by
          rw [mul_add]
          omega
        have ended : P * (lo + 1) ≤ 0 := mul_nonpos_of_nonneg_of_nonpos divisor.le (by omega)
        have positive : 0 ≤ P * hi := mul_nonneg divisor.le above
        have few := few_of_not_too_large inverse (near _ inside (by omega)).2
        rwa [neg_add, ← sub_eq_add_neg] at few
  · rintro ⟨high, low⟩ S least most
    constructor
    · -- the whole quotients below the sum, with at least one of it left
      have split := Int.emod_add_mul_ediv (S - 1) P
      have first := Int.emod_nonneg (S - 1) divisor.ne'
      have last := Int.emod_lt_of_pos (S - 1) divisor
      have few : (S - 1) / P ≤ hi - 1 := by
        apply Int.le_sub_one_of_lt
        apply lt_of_mul_lt_mul_left _ divisor.le
        omega
      apply not_too_small inverse (q := (S - 1) / P) (by omega) (by rw [mul_add]; omega)
      exact (mul_le_mul_of_nonneg_right few missing).trans high
    · have split := Int.emod_add_mul_ediv S P
      have first := Int.emod_nonneg S divisor.ne'
      have last := Int.emod_lt_of_pos S divisor
      have few : lo ≤ S / P := by
        apply (Int.le_ediv_iff_mul_le divisor).mpr
        rwa [mul_comm]
      apply not_too_large inverse (q := S / P) (by omega) (by rw [mul_add]; omega)
      have fewer : -(S / P + 1) ≤ -lo - 1 := by omega
      exact (mul_le_mul_of_nonneg_right fewer missing).trans_lt low

end Products

end Pypga.Foundation.Reciprocal
