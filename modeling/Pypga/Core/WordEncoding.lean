/- GID: Pypga/Core/WordEncoding
   generality: G
   digest: When the word a register class encodes a value in fits the register. -/

import Pypga.Core.Registers

set_option autoImplicit false
set_option relaxedAutoImplicit false

namespace Pypga.Core.WordEncoding

open Pypga.Foundation.Rounding
open Pypga.Core.Registers

inductive AnyRegister
  | register (r : Register)
  | bool (r : BoolRegister)
  | number (r : NumberRegister)
  | fixedPoint (r : FixedPointRegister)

namespace AnyRegister

def toRegister : AnyRegister → Register
  | register r => r
  | bool r => r.toRegister
  | number r => r.toRegister
  | fixedPoint r => r.toRegister

/-- `from_python(before_from_python(value))`; only numbers have limits. -/
def encoded : AnyRegister → ℚ → ℤ
  | register r, v => r.fromPython v
  | bool r, v => r.fromPython v
  | number r, v => r.fromPython (r.beforeFromPython v)
  | fixedPoint r, v => r.fromPython (r.toNumberRegister.beforeFromPython v)

def IsWord (r : AnyRegister) (k : ℤ) : Prop := 0 ≤ k ∧ k < 2 ^ r.toRegister.width

/-- The word fits; that of a plain unsigned register is the one nearest to the value with its
offset. -/
structure Encodes (r : AnyRegister) (v : ℚ) : Prop where
  fits : r.IsWord (r.encoded v)
  nearest : ∀ p, r = register p → p.signed = false → ∀ k, r.IsWord k →
    |r.encoded v - (pyInt v + p.offsetFromPython)| ≤ |k - (pyInt v + p.offsetFromPython)|

end AnyRegister

section Words

variable (r : Register)

private theorem from_python_nonneg (v : ℚ) : 0 ≤ r.fromPython v := by
  unfold Register.fromPython
  dsimp only
  have positive : (0 : ℤ) < 2 ^ r.width := by positivity
  split_ifs <;> omega

private theorem from_python_lt_iff (v : ℚ) :
    r.fromPython v < 2 ^ r.width ↔ pyInt v + r.offsetFromPython < 2 ^ r.width := by
  unfold Register.fromPython
  dsimp only
  have positive : (0 : ℤ) < 2 ^ r.width := by positivity
  split_ifs <;> omega

private theorem from_python_nearest {v : ℚ} (below : pyInt v + r.offsetFromPython < 2 ^ r.width)
    {k : ℤ}
    (above : 0 ≤ k) :
    |r.fromPython v - (pyInt v + r.offsetFromPython)| ≤ |k - (pyInt v + r.offsetFromPython)| := by
  unfold Register.fromPython
  dsimp only
  split_ifs with negative most
  · rw [abs_of_nonneg (by omega), abs_of_nonneg (by omega)]
    omega
  · omega
  · rw [sub_self, abs_zero]
    exact abs_nonneg _

end Words

section Numbers

variable (r : NumberRegister)

def limits (v : ℚ) : ℚ := (r.max.filter fun most => most < v).getD (max v (r.min.getD v))

def ranged (v : ℚ) : ℚ := max (r.intMin : ℚ) (min (r.intMax : ℚ) v)

/-- The offset moves the value neither over the greatest word nor, if it is negative, to zero or
above. -/
def Representable (c : ℚ) : Prop :=
  ⌊c⌋ + r.offsetFromPython < if r.signed = true ∧ c < 0 then 0 else 2 ^ r.width

variable {r} in
theorem before_from_python_free (unlimited : r.min = none ∧ r.max = none) (v : ℚ) :
    r.beforeFromPython v = v := by
  rw [NumberRegister.beforeFromPython, unlimited.1, unlimited.2]
  rfl

theorem before_from_python_eq (v : ℚ) : r.beforeFromPython v = limits r v := by
  unfold NumberRegister.beforeFromPython limits
  have lower : (if r.min.any fun least => v < least then r.min.getD v else v) =
      max v (r.min.getD v) := by
    cases r.min with
    | none => simp
    | some least =>
      by_cases under : v < least
      · simp [under, under.le]
      · simp [under, not_lt.mp under]
  rw [lower]
  cases r.max with
  | none => simp
  | some most =>
    by_cases above : most < v <;> simp [Option.filter, above]

theorem int_min_le_max : r.intMin ≤ r.intMax := by
  unfold NumberRegister.intMin NumberRegister.intMax
  have half : (0 : ℤ) < 2 ^ (r.width - 1) := by positivity
  have whole : (0 : ℤ) < 2 ^ r.width := by positivity
  split_ifs <;> omega

private theorem int_min_wraps : 0 ≤ r.intMin + 2 ^ r.width := by
  unfold NumberRegister.intMin
  have le : (2 : ℤ) ^ (r.width - 1) ≤ 2 ^ r.width :=
    pow_le_pow_right₀ (by omega) (Nat.sub_le _ _)
  have whole : (0 : ℤ) < 2 ^ r.width := by positivity
  split_ifs <;> omega

private theorem ranged_eq (v : ℚ) :
    (if v < r.intMin then (r.intMin : ℚ) else if r.intMax < v then (r.intMax : ℚ) else v) =
      ranged r v := by
  have range : (r.intMin : ℚ) ≤ r.intMax := by exact_mod_cast int_min_le_max r
  unfold ranged
  split_ifs with under above
  · rw [min_eq_right (under.le.trans range), max_eq_left under.le]
  · rw [min_eq_left above.le, max_eq_right range]
  · rw [min_eq_right (not_lt.mp above), max_eq_right (not_lt.mp under)]

theorem number_from_python_eq (v : ℚ) :
    r.fromPython v = r.toRegister.fromPython
      (if r.signed = true ∧ ranged r v < 0 then ranged r v + 2 ^ r.width else ranged r v) := by
  unfold NumberRegister.fromPython
  dsimp only
  rw [ranged_eq]

theorem py_int_of_nonneg {v : ℚ} (nonneg : 0 ≤ v) : pyInt v = ⌊v⌋ := if_pos nonneg

private theorem number_word_lt_iff (v : ℚ) :
    r.fromPython v < 2 ^ r.width ↔ Representable r (ranged r v) := by
  rw [number_from_python_eq, from_python_lt_iff, Representable]
  have least : (r.intMin : ℚ) ≤ ranged r v := le_max_left _ _
  split_ifs with negative
  · have wraps : (0 : ℚ) ≤ r.intMin + 2 ^ r.width := by exact_mod_cast int_min_wraps r
    have power : ((2 ^ r.width : ℤ) : ℚ) = 2 ^ r.width := by norm_cast
    rw [py_int_of_nonneg (by linarith), ← power, Int.floor_add_intCast]
    constructor <;> intro below <;> omega
  · have nonneg : 0 ≤ ranged r v := by
      by_cases signed : r.signed = true
      · exact not_lt.mp fun below => negative ⟨signed, below⟩
      · have zero : r.intMin = 0 := if_neg signed
        rw [zero, Int.cast_zero] at least
        exact least
    rw [py_int_of_nonneg nonneg]

private theorem number_word_nonneg (v : ℚ) : 0 ≤ r.fromPython v := by
  rw [number_from_python_eq]
  exact from_python_nonneg _ _

end Numbers

/-- The values for which the last clamp does not saturate at `1 << width`. -/
def InReach : AnyRegister → ℚ → Prop
  | .register r, v => pyInt v + r.offsetFromPython < 2 ^ r.width
  | .bool r, v =>
    (if r.invert = decide (v = 0) then 2 ^ r.bit else 0) + r.offsetFromPython < 2 ^ r.width
  | .number r, v => Representable r (ranged r (limits r v))
  | .fixedPoint r, v =>
    Representable r.toNumberRegister (ranged r.toNumberRegister
      (halfEven (limits r.toNumberRegister v * (2 ^ r.decimals - 1)) : ℤ))

private theorem bool_word_lt_iff (r : BoolRegister) (v : ℚ) :
    r.fromPython v < 2 ^ r.width ↔ InReach (.bool r) v := by
  rw [BoolRegister.fromPython, from_python_lt_iff, InReach]
  have bit : pyInt ((((if r.invert then !decide (v ≠ 0) else decide (v ≠ 0)) : Bool).toNat <<< r.bit : ℕ) : ℚ) =
      if r.invert = decide (v = 0) then 2 ^ r.bit else 0 := by
    rw [← Int.cast_natCast, py_int_cast, Nat.shiftLeft_eq]
    by_cases zero : v = 0 <;> cases r.invert <;> simp [zero]
  rw [bit]

theorem is_word_iff (r : AnyRegister) (v : ℚ) : r.IsWord (r.encoded v) ↔ InReach r v := by
  cases r with
  | register r => exact (and_iff_right (from_python_nonneg r v)).trans (from_python_lt_iff r v)
  | bool r => exact (and_iff_right (from_python_nonneg _ _)).trans (bool_word_lt_iff r v)
  | number r =>
    rw [InReach, ← before_from_python_eq]
    exact (and_iff_right (number_word_nonneg r _)).trans (number_word_lt_iff r _)
  | fixedPoint r =>
    rw [InReach, ← before_from_python_eq]
    exact (and_iff_right (number_word_nonneg r.toNumberRegister _)).trans
      (number_word_lt_iff r.toNumberRegister _)

/-- Every encoded word fits its register, and is the nearest one of a plain unsigned register,
exactly for the values that the offset does not move over the greatest word. -/
theorem encodes_iff (r : AnyRegister) (v : ℚ) : r.Encodes v ↔ InReach r v := by
  constructor
  · intro encodes
    exact (is_word_iff r v).mp encodes.fits
  · intro reach
    refine ⟨(is_word_iff r v).mpr reach, ?_⟩
    rintro p rfl - k word
    exact from_python_nearest p reach word.1

/-- The first value over the maximum of a byte becomes a word of nine bits. -/
theorem word_fits_counterexample : ¬ AnyRegister.Encodes (.register { width := 8 }) 256 := by
  intro encodes
  have fits := (from_python_lt_iff { width := 8 } 256).mp encodes.fits.2
  have value : pyInt 256 = 256 := py_int_cast 256
  rw [value] at fits
  exact absurd fits (by decide)

end Pypga.Core.WordEncoding
