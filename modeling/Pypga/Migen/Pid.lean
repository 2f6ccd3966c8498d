/- GID: Pypga/Migen/Pid
   generality: G
   digest: The PI controller, exact modulo the range of its output, and when it saturates. -/

import Mathlib.Algebra.Order.Ring.Abs
import Mathlib.Tactic.Ring
import Pypga.Foundation.Accumulation
import Pypga.Foundation.ClockedMachine

set_option autoImplicit false
set_option relaxedAutoImplicit false

namespace Pypga.Migen.Pid

open Pypga.Foundation.Accumulation
open Pypga.Foundation.ClockedMachine (run run_succ)

structure Input (width : ℕ) where
  input : BitVec width
  setpoint : BitVec width
  kP : BitVec width
  kI : BitVec width

structure Controller (width : ℕ) where
  error : BitVec (width + 1)
  prop : BitVec (2 * width + 1)
  int : BitVec (2 * width + 1)
  intSum : BitVec (2 * width + 1)
  sum : BitVec (2 * width + 2)
  out : BitVec width

variable {width : ℕ}

def powerUp (width : ℕ) : Controller width := ⟨0, 0, 0, 0, 0, 0⟩

/-- One clock edge: a signed result is cut, or extended, to its register;
the output takes the least significant bits. -/
def next (i : Input width) (s : Controller width) : Controller width where
  error := BitVec.ofInt _ (i.input.toInt - i.setpoint.toInt)
  prop := BitVec.ofInt _ (s.error.toInt * i.kP.toInt)
  int := BitVec.ofInt _ (s.error.toInt * i.kI.toInt)
  intSum := BitVec.ofInt _ (s.intSum.toInt + s.int.toInt)
  sum := BitVec.ofInt _ (s.prop.toInt + s.intSum.toInt)
  out := s.sum.setWidth width

variable (w : ℕ → Input width)

def history : ℕ → Controller width := run next (powerUp width) w

def error : ℕ → ℤ
  | 0 => 0
  | t + 1 => (w t).input.toInt - (w t).setpoint.toInt

def integrand (u : ℕ) : ℤ := error w u * (w u).kI.toInt

/-- The value of an unbounded PI controller with the latency of the hardware. -/
def exact : ℕ → ℤ
  | t + 3 => error w t * (w t).kP.toInt + total (integrand w) 0 t
  | _ => 0

section Widths

private theorem difference_fits (x y : BitVec width) :
    (BitVec.ofInt (width + 1) (x.toInt - y.toInt)).toInt = x.toInt - y.toInt := by
  have range_x := to_int_range x
  have range_y := to_int_range y
  have double : (2 : ℤ) ^ (width + 1) = 2 * 2 ^ width := pow_succ' 2 width
  apply to_int_of_fits
  · omega
  · omega

private theorem product_fits (x : BitVec (width + 1)) (y : BitVec width) :
    (BitVec.ofInt (2 * width + 1) (x.toInt * y.toInt)).toInt = x.toInt * y.toInt := by
  have range_x := to_int_range x
  have range_y := to_int_range y
  have double : (2 : ℤ) ^ (width + 1) = 2 * 2 ^ width := pow_succ' 2 width
  have positive : (0 : ℤ) < 2 ^ width := by positivity
  have square : (2 : ℤ) ^ (2 * width + 1) = 2 * (2 ^ width * 2 ^ width) := by
    rw [pow_succ', two_mul width, pow_add]
  have size_x : |x.toInt| ≤ 2 ^ width := abs_le.mpr ⟨by omega, by omega⟩
  have size_y : |2 * y.toInt| ≤ 2 ^ width := abs_le.mpr ⟨by omega, by omega⟩
  have size : |x.toInt * (2 * y.toInt)| ≤ 2 ^ width * 2 ^ width := by
    rw [abs_mul]
    exact mul_le_mul size_x size_y (abs_nonneg _) positive.le
  obtain ⟨least, most⟩ := abs_le.mp size
  have large : (0 : ℤ) < 2 ^ width * 2 ^ width := mul_pos positive positive
  have moved : 2 * (x.toInt * y.toInt) = x.toInt * (2 * y.toInt) := by ring
  apply to_int_of_fits
  · omega
  · omega

private theorem sum_fits (x y : BitVec (2 * width + 1)) :
    (BitVec.ofInt (2 * width + 2) (x.toInt + y.toInt)).toInt = x.toInt + y.toInt := by
  have range_x := to_int_range x
  have range_y := to_int_range y
  have double : (2 : ℤ) ^ (2 * width + 2) = 2 * 2 ^ (2 * width + 1) := pow_succ' 2 _
  apply to_int_of_fits
  · omega
  · omega

end Widths

section Registers

private theorem history_succ (t : ℕ) :
    history w (t + 1) = next (w t) (history w t) := run_succ _ _ _ t

private theorem error_exact (t : ℕ) : (history w t).error.toInt = error w t := by
  cases t with
  | zero => exact BitVec.toInt_zero
  | succ t =>
    rw [history_succ]
    exact difference_fits _ _

private theorem prop_exact (t : ℕ) :
    (history w (t + 1)).prop.toInt = error w t * (w t).kP.toInt := by
  rw [← error_exact w t, history_succ]
  exact product_fits _ _

private theorem int_exact (t : ℕ) : (history w (t + 1)).int.toInt = integrand w t := by
  rw [integrand, ← error_exact w t, history_succ]
  exact product_fits _ _

private theorem sum_exact (t : ℕ) : (history w (t + 1)).sum.toInt =
    (history w t).prop.toInt + (history w t).intSum.toInt := by
  rw [history_succ]
  exact sum_fits _ _

private theorem int_sum_exact (t : ℕ) :
    (history w (t + 1)).intSum = BitVec.ofInt _ (total (integrand w) 0 t) := by
  have zero : (0 : BitVec (2 * width + 1)).toInt = 0 := BitVec.toInt_zero
  have start : (history w 1).intSum = BitVec.ofInt (2 * width + 1) 0 := by
    show BitVec.ofInt _ ((0 : BitVec (2 * width + 1)).toInt + (0 : BitVec (2 * width + 1)).toInt) = _
    rw [zero, add_zero]
  have sums := total_of_add (fun t => (history w (t + 1)).intSum) (f := integrand w) (Nat.zero_le t)
    start ?_
  · rw [zero_add] at sums
    exact sums
  · intro k _ _
    show (history w (k + 1 + 1)).intSum = _
    rw [history_succ, ← int_exact w k, BitVec.ofInt_toInt]
    show BitVec.ofInt _ (_ + _) = _
    rw [BitVec.ofInt_add, BitVec.ofInt_toInt, BitVec.ofInt_toInt]

private theorem out_modulo (t : ℕ) :
    (history w (t + 1)).out.toInt ≡ (history w t).sum.toInt [ZMOD 2 ^ width] := by
  have low : (history w (t + 1)).out = BitVec.ofInt width (history w t).sum.toInt := by
    rw [history_succ, ← set_width_of_int (n := 2 * width + 2) (by omega), BitVec.ofInt_toInt]
    rfl
  rw [low]
  exact to_int_mod width _

private theorem sum_early {t : ℕ} (early : t < 2) : (history w t).sum.toInt = 0 := by
  have zero (n : ℕ) : (0 : BitVec n).toInt = 0 := BitVec.toInt_zero
  match t with
  | 0 => exact zero _
  | 1 =>
    rw [sum_exact w 0]
    show (0 : BitVec _).toInt + (0 : BitVec _).toInt = 0
    rw [zero, add_zero]

private theorem out_early {t : ℕ} (early : t < 3) :
    (history w t).out.toInt ≡ 0 [ZMOD 2 ^ width] := by
  cases t with
  | zero =>
    have zero : (history w 0).out.toInt = 0 := BitVec.toInt_zero
    rw [zero]
  | succ t =>
    have low := out_modulo w t
    rw [sum_early w (by omega)] at low
    exact low

private theorem out_exact (t : ℕ) : (history w t).out.toInt ≡ exact w t [ZMOD 2 ^ width] := by
  match t with
  | 0 => exact out_early w (by decide)
  | 1 => exact out_early w (by decide)
  | 2 => exact out_early w (by decide)
  | t + 3 =>
    have wrapped := to_int_mod (2 * width + 1) (total (integrand w) 0 t)
    rw [← int_sum_exact] at wrapped
    have narrow : (2 : ℤ) ^ width ∣ 2 ^ (2 * width + 1) := pow_dvd_pow 2 (by omega)
    calc (history w (t + 3)).out.toInt
        ≡ (history w (t + 2)).sum.toInt [ZMOD 2 ^ width] := out_modulo w (t + 2)
      _ = error w t * (w t).kP.toInt + (history w (t + 1)).intSum.toInt := by
        rw [sum_exact w (t + 1), prop_exact]
      _ ≡ exact w (t + 3) [ZMOD 2 ^ width] := (wrapped.of_dvd narrow).add_left _

end Registers

/-- In every cycle the output is the exact value modulo its range; the error, both products and the
sum are the exact ones, and the integrator wraps without disturbing the output. -/
theorem pid_exact_modulo (t : ℕ) :
    (history w t).out.toInt ≡ exact w t [ZMOD 2 ^ width] ∧
      (history w t).error.toInt = error w t ∧
      (history w (t + 1)).prop.toInt = error w t * (w t).kP.toInt ∧
      (history w (t + 1)).int.toInt = error w t * (w t).kI.toInt ∧
      (history w (t + 1)).sum.toInt = (history w t).prop.toInt + (history w t).intSum.toInt ∧
      (history w (t + 1)).intSum = BitVec.ofInt _ (total (integrand w) 0 t) :=
  ⟨out_exact w t, error_exact w t, prop_exact w t, int_exact w t, sum_exact w t, int_sum_exact w t⟩

section Saturation

def most (width : ℕ) : ℤ := 2 ^ (width - 1) - 1

def least (width : ℕ) : ℤ := -2 ^ (width - 1)

def clamp (width : ℕ) (x : ℤ) : ℤ := max (least width) (min x (most width))

def Clamped (width : ℕ) (x : ℤ) : Prop :=
  (least width ≤ x ∧ x ≤ most width) ∨
    (most width < x ∧ 2 ^ width ∣ x - most width) ∨ (x < least width ∧ 2 ^ width ∣ least width - x)

private theorem most_nonneg (width : ℕ) : 0 ≤ most width := by
  have positive : (0 : ℤ) < 2 ^ (width - 1) := by positivity
  rw [most]
  omega

variable (wide : 0 < width)
include wide

private theorem range_eq :
    (2 : ℤ) ^ width = 2 * (most width + 1) ∧ least width = -(most width + 1) := by
  have double : (2 : ℤ) ^ width = 2 * 2 ^ (width - 1) := by
    rw [← pow_succ', Nat.sub_add_cancel wide]
  rw [most, least]
  omega

private theorem clamp_cases (x : ℤ) :
    (least width ≤ x ∧ x ≤ most width ∧ clamp width x = x) ∨
      (most width < x ∧ clamp width x = most width) ∨
      (x < least width ∧ clamp width x = least width) := by
  have bounds := range_eq wide
  have nonneg := most_nonneg width
  rw [clamp]
  omega

private theorem clamp_mod_iff (x : ℤ) : clamp width x ≡ x [ZMOD 2 ^ width] ↔ Clamped width x := by
  have bounds := range_eq wide
  have nonneg := most_nonneg width
  rw [Clamped]
  rcases clamp_cases wide x with ⟨above, below, value⟩ | ⟨above, value⟩ | ⟨below, value⟩
  · rw [value]
    exact iff_of_true rfl (.inl ⟨above, below⟩)
  · rw [value, Int.modEq_iff_dvd]
    constructor
    · intro multiple
      exact .inr (.inl ⟨above, multiple⟩)
    · rintro (⟨-, inside⟩ | ⟨-, multiple⟩ | ⟨outside, -⟩)
      · omega
      · exact multiple
      · omega
  · rw [value, Int.modEq_iff_dvd, dvd_sub_comm]
    constructor
    · intro multiple
      exact .inr (.inr ⟨below, multiple⟩)
    · rintro (⟨inside, -⟩ | ⟨outside, -⟩ | ⟨-, multiple⟩)
      · omega
      · omega
      · exact multiple

/-- The output saturates in a cycle exactly if its exact value is in range there, or outside by a
multiple of the range from the nearer end. -/
theorem pid_saturates_iff (t : ℕ) :
    (history w t).out.toInt = clamp width (exact w t) ↔ Clamped width (exact w t) := by
  have modulo := out_exact w t
  rw [← clamp_mod_iff wide]
  constructor
  · intro saturated
    rw [← saturated]
    exact modulo
  · intro congruent
    have bounds := range_eq wide
    have nonneg := most_nonneg width
    have cases := clamp_cases wide (exact w t)
    obtain ⟨low, high⟩ := to_int_range (history w t).out
    exact eq_of_mod ⟨low, by omega⟩ ⟨high, by omega⟩ (modulo.trans congruent.symm)

omit wide

def overdriven : ℕ → Input 8 := fun _ => ⟨100, BitVec.ofInt 8 (-100), 1, 0⟩

theorem pid_saturates_inside : (history (fun _ => (⟨100, 0, 1, 0⟩ : Input 8)) 4).out.toInt = 100 :=
  (pid_saturates_iff _ (by decide) 4).mpr (.inl (by decide +kernel))

/-- In eight bits an exact value of two hundred comes out negative. -/
theorem pid_saturates_counterexample :
    exact overdriven 4 = 200 ∧ clamp 8 (exact overdriven 4) = 127 ∧
      (history overdriven 4).out.toInt = -56 := by
  decide +kernel

end Saturation

end Pypga.Migen.Pid
