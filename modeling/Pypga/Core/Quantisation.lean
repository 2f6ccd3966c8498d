/- GID: Pypga/Core/Quantisation
   generality: G
   digest: Fixed-point registers round to the nearest value of their grid, and saturate at its ends. -/

import Mathlib.Tactic.NormNum
import Pypga.Core.OffsetLaw

set_option autoImplicit false
set_option relaxedAutoImplicit false

namespace Pypga.Core.Quantisation

open Pypga.Foundation.Rounding
open Pypga.Core.Registers
open Pypga.Core.WordEncoding
open Pypga.Core.OffsetLaw

def scale (r : FixedPointRegister) : ℚ := 2 ^ r.decimals - 1

def grid (r : FixedPointRegister) : Set ℚ :=
  {q | ∃ k : ℤ, r.intMin ≤ k ∧ k ≤ r.intMax ∧ q = k / scale r}

/-- What is read back of `x` after it has been written. -/
structure NearestOf (r : FixedPointRegister) (x q : ℚ) : Prop where
  member : q ∈ grid r
  nearest : ∀ p ∈ grid r, |q - x| ≤ |p - x|
  error : r.intMin / scale r ≤ x → x ≤ r.intMax / scale r → |q - x| ≤ 1 / (2 * scale r)
  low : x < r.intMin / scale r → q = r.intMin / scale r
  high : r.intMax / scale r < x → q = r.intMax / scale r

/-- Every word survives being read and written, every value becomes a nearest one of the grid,
and the order is kept. -/
structure Quantises (r : FixedPointRegister) : Prop where
  inverse : ∀ raw : ℕ, raw < 2 ^ r.width →
    ∃ q, r.toPython raw = some q ∧ r.fromPython q = raw
  nearest : ∀ x, ∃ q, r.toPython (r.fromPython x) = some q ∧ NearestOf r x q
  monotone : ∀ x y p q, x ≤ y → r.toPython (r.fromPython x) = some p →
    r.toPython (r.fromPython y) = some q → p ≤ q

section Integers

variable {r : NumberRegister}

private theorem from_python_saturate (k : ℤ) :
    r.fromPython (k : ℚ) = r.fromPython (saturate r.intMin r.intMax k : ℤ) := by
  have same : ranged r (k : ℚ) = ranged r (saturate r.intMin r.intMax k : ℤ) := by
    obtain ⟨above, below⟩ := saturate_mem (k := k) (int_min_le_max r)
    rw [ranged_keep ⟨above, below⟩, ranged, saturate]
    push_cast
    rfl
  rw [number_from_python_eq, number_from_python_eq, same]

variable (nonempty : 1 ≤ r.width)
include nonempty

theorem decoded_range {raw : ℕ} (fits : raw < 2 ^ r.width) : InRange r (decoded r raw) := by
  have range := whole_range nonempty
  have small : (raw : ℤ) < 2 ^ r.width := by exact_mod_cast fits
  unfold decoded
  constructor
  · unfold NumberRegister.intMin
    cases r.signed <;> simp only [Bool.false_eq_true, false_and, true_and, if_false, if_true]
    · exact Int.natCast_nonneg raw
    · split_ifs <;> omega
  · unfold NumberRegister.intMax
    cases r.signed <;> simp only [Bool.false_eq_true, false_and, true_and, if_false, if_true]
    · omega
    · split_ifs <;> omega

private theorem complement_decoded {raw : ℕ} (fits : raw < 2 ^ r.width) :
    complement r (decoded r raw) = raw := by
  have range := whole_range nonempty
  have small : (raw : ℤ) < 2 ^ r.width := by exact_mod_cast fits
  unfold complement decoded
  split_ifs <;> omega

variable (unshifted : r.offsetFromPython = 0)
include unshifted

theorem from_python_int (k : ℤ) :
    r.fromPython (k : ℚ) = complement r (saturate r.intMin r.intMax k) := by
  obtain ⟨above, below⟩ := saturate_mem (k := k) (int_min_le_max r)
  have inside : InRange r (saturate r.intMin r.intMax k) := ⟨above, below⟩
  obtain ⟨nonneg, small⟩ := complement_lt nonempty inside
  rw [from_python_saturate, word_of_range inside, unshifted]
  omega

end Integers

section Grid

variable {r : FixedPointRegister} (nonempty : 1 ≤ r.width) (scaled : 1 ≤ r.decimals)
  (unshifted : r.offsetFromPython = 0) (own : r.signed = true → r.readWidth = r.width)

omit nonempty unshifted own in
include scaled in
theorem scale_pos : 0 < scale r := by
  have two : (2 : ℚ) ^ 1 ≤ 2 ^ r.decimals := pow_le_pow_right₀ (by norm_num) scaled
  unfold scale
  linarith

def step (r : FixedPointRegister) (x : ℚ) : ℤ :=
  saturate r.intMin r.intMax (halfEven (x * scale r))

theorem step_range (x : ℚ) : InRange r.toNumberRegister (step r x) := by
  obtain ⟨above, below⟩ := saturate_mem (k := halfEven (x * scale r))
    (int_min_le_max r.toNumberRegister)
  exact ⟨above, below⟩

private theorem step_mono {x y : ℚ} (positive : 0 < scale r) (le : x ≤ y) : step r x ≤ step r y :=
  saturate_mono (half_even_mono (mul_le_mul_of_nonneg_right le positive.le))

include scaled unshifted own in
theorem to_python_word (raw : ℕ) :
    r.toPython raw = some (decoded r.toNumberRegister raw / scale r) := by
  have nonzero : (2 : ℚ) ^ r.decimals - 1 ≠ 0 := (scale_pos scaled).ne'
  rw [FixedPointRegister.toPython, if_neg nonzero, to_python_eq own, unshifted, sub_zero]
  rfl

include nonempty unshifted in
theorem from_python_eq (x : ℚ) : r.fromPython x = complement r.toNumberRegister (step r x) := by
  rw [FixedPointRegister.fromPython, from_python_int nonempty unshifted]
  rfl

include nonempty scaled unshifted own in
theorem written_then_read (x : ℚ) : r.toPython (r.fromPython x) = some (step r x / scale r) := by
  have inside := step_range (r := r) x
  obtain ⟨nonneg, -⟩ := complement_lt nonempty inside
  have natural : complement r.toNumberRegister (step r x) =
      ((complement r.toNumberRegister (step r x)).toNat : ℤ) := (Int.toNat_of_nonneg nonneg).symm
  rw [from_python_eq nonempty unshifted, natural, to_python_word scaled unshifted own, ← natural,
    decoded_complement nonempty inside]

include nonempty scaled unshifted in
theorem read_then_written {raw : ℕ} (fits : raw < 2 ^ r.width) :
    r.fromPython (decoded r.toNumberRegister raw / scale r) = raw := by
  have positive := scale_pos scaled
  have inside := decoded_range nonempty fits
  rw [from_python_eq nonempty unshifted, step, div_mul_cancel₀ _ positive.ne', half_even_intCast,
    saturate_of_mem inside.above inside.below, complement_decoded nonempty fits]

omit nonempty scaled unshifted own in
private theorem distance_eq (positive : 0 < scale r) (k : ℤ) (x : ℚ) :
    |(k : ℚ) / scale r - x| = |(k : ℚ) - x * scale r| / scale r := by
  have split : (k : ℚ) / scale r - x = ((k : ℚ) - x * scale r) / scale r := by
    rw [sub_div, mul_div_cancel_right₀ _ positive.ne']
  rw [split, abs_div, abs_of_pos positive]

omit nonempty scaled unshifted own in
theorem step_nearest (positive : 0 < scale r) (x : ℚ) : NearestOf r x (step r x / scale r) := by
  have range := int_min_le_max r.toNumberRegister
  have inside := step_range (r := r) x
  have whole : ∀ k : ℤ, halfEven (k : ℚ) = k := half_even_intCast
  refine ⟨⟨step r x, inside.above, inside.below, rfl⟩, ?_, ?_, ?_, ?_⟩
  · rintro p ⟨k, above, below, rfl⟩
    rw [distance_eq positive, distance_eq positive]
    apply div_le_div_of_nonneg_right _ positive.le
    exact saturate_nearest (half_even_error _) above below
  · intro above below
    have least := half_even_mono ((div_le_iff₀ positive).mp above)
    have most := half_even_mono ((le_div_iff₀ positive).mp below)
    rw [whole] at least most
    rw [distance_eq positive, step, saturate_of_mem least most, ← div_div]
    exact div_le_div_of_nonneg_right (half_even_error _) positive.le
  · intro below
    have most := half_even_mono ((lt_div_iff₀ positive).mp below).le
    rw [whole] at most
    rw [step, saturate, min_eq_right (most.trans range), max_eq_left most]
  · intro above
    have least := half_even_mono ((div_lt_iff₀ positive).mp above).le
    rw [whole] at least
    rw [step, saturate, min_eq_left least, max_eq_right range]

include nonempty scaled unshifted own in
/-- A register that is read with words of its own width quantises without loss. -/
theorem fixed_point_quantises : Quantises r := by
  have positive := scale_pos scaled
  refine ⟨?_, ?_, ?_⟩
  · intro raw fits
    exact ⟨_, to_python_word scaled unshifted own raw,
      read_then_written nonempty scaled unshifted fits⟩
  · intro x
    exact ⟨_, written_then_read nonempty scaled unshifted own x, step_nearest positive x⟩
  · intro x y p q le first second
    rw [written_then_read nonempty scaled unshifted own] at first second
    rw [← Option.some.inj first, ← Option.some.inj second]
    apply div_le_div_of_nonneg_right _ positive.le
    exact_mod_cast step_mono positive le

end Grid

theorem fixed_point_quantises_volts :
    Quantises { width := 14, decimals := 13, signed := true } :=
  fixed_point_quantises (by decide) (by decide) rfl fun _ => rfl

/-- The words that come from RAM have 32 bits: the word of the least voltage of a converter is
read as a voltage over the maximum, and would be written as the maximum. -/
theorem fixed_point_quantises_counterexample :
    ¬ Quantises { width := 14, decimals := 13, signed := true, ramOffset := some 0 } := by
  intro quantises
  obtain ⟨q, read, written⟩ := quantises.inverse 8192 (by decide)
  have value : q = 8192 / 8191 := by
    have nonzero : ¬ ((2 : ℚ) ^ 13 - 1 = 0) := by norm_num
    have full : (2 : ℚ) ^ 13 - 1 = 8191 := by norm_num
    rw [FixedPointRegister.toPython, if_neg nonzero, full] at read
    exact (Option.some.inj read).symm
  have steps : (8192 / 8191 : ℚ) *
      scale { width := 14, decimals := 13, signed := true, ramOffset := some 0 } = (8192 : ℤ) := by
    norm_num [scale]
  rw [value, from_python_eq (by decide) rfl, step, steps, half_even_intCast] at written
  exact absurd written (by decide)

end Pypga.Core.Quantisation
