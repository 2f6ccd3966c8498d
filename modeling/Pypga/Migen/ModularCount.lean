/- GID: Pypga/Migen/ModularCount
   generality: G
   digest: A counter without stop counts its enabled cycles modulo its range, with the last carry. -/

import Pypga.Migen.Counter
import Pypga.Migen.Operands

set_option autoImplicit false
set_option relaxedAutoImplicit false

namespace Pypga.Migen.ModularCount

open Pypga.Foundation.ClockedMachine (run run_succ)
open Pypga.Foundation.FixedWidth
open Pypga.Migen.Counter
open Pypga.Migen.Operands (Operand)

/-- The reset value of `count_with_carry`: an integer itself, the reset value of a signal;
other operands have no attribute `reset`. -/
def initialCount : Operand → Option ℤ
  | .int value => some value
  | .signal _ reset => some reset
  | .constant _ _ => none
  | .expression _ => none

/-- The register `count_with_carry` before the first clock edge. -/
def powerUp (width : ℕ) (start : Operand) : Option ℕ := (initialCount start).map (trunc (width + 1))

/-- A counter that never stops, its start and step constant; the start is an integer or a signal. -/
structure Arguments where
  width : ℕ
  direction : Direction
  startOperand : Operand
  start : ℕ
  step : ℕ
  initial : initialCount startOperand = some (start : ℤ)
  start_lt : start < 2 ^ width
  step_le : step ≤ 2 ^ width

structure Control where
  reset : Bool
  on : Bool

def steps (w : ℕ → Control) : ℕ → ℕ
  | 0 => 0
  | t + 1 => if (w t).reset then 0 else if (w t).on then steps w t + 1 else steps w t

namespace Arguments

variable (a : Arguments)

def input (c : Control) : Input := ⟨a.start, none, a.step, c.reset, c.on⟩

/-- The register `count_with_carry` cycle by cycle from power-up. -/
def history (w : ℕ → Control) : ℕ → ℕ :=
  run (fun c => next a.width a.direction (a.input c)) (trunc (a.width + 1) a.start) w

/-- The value of an unbounded counter after `k` steps. -/
def total (k : ℕ) : ℤ := moved a.direction a.start (k * a.step)

/-- The register after `k` steps. -/
def held : ℕ → ℕ
  | 0 => trunc (a.width + 1) a.start
  | k + 1 => trunc (a.width + 1) (moved a.direction (count a.width (held k)) a.step)

private theorem power_up_eq (w : ℕ → Control) :
    powerUp a.width a.startOperand = some (a.history w 0) := by
  rw [powerUp, a.initial]
  rfl

private theorem history_eq (w : ℕ → Control) (t : ℕ) : a.history w t = a.held (steps w t) := by
  induction t with
  | zero => rfl
  | succ t ih =>
    have edge : a.history w (t + 1) =
        next a.width a.direction (a.input (w t)) (a.history w t) := run_succ _ _ _ t
    rw [edge, steps, next, ih]
    cases reset : (w t).reset with
    | true => simp [input, reset, held]
    | false => cases on : (w t).on <;> simp [input, reset, on, stepping, done, held]

private theorem count_held (k : ℕ) : count a.width (a.held k) = trunc a.width (a.total k) :=
  count_steps rfl (fun _ => rfl) k

private theorem carry_held_zero : carry a.width (a.held 0) = false := by
  have small := a.start_lt
  have double : 2 ^ (a.width + 1) = 2 * 2 ^ a.width := pow_succ' 2 a.width
  rw [Bool.eq_false_iff, Ne, held, carry_iff (trunc_lt _ _), trunc_of_fits (by omega)]
  omega

private theorem carry_held_succ (k : ℕ) :
    carry a.width (a.held (k + 1)) = true ↔
      Wraps a.width a.direction (trunc a.width (a.total k)) a.step :=
  carry_steps rfl (fun _ => rfl) a.step_le k

end Arguments

/-- Count and carry in every cycle of every run: the count is the number of enabled cycles since
the last reset, scaled and modulo the range; the carry says whether the last of these steps crossed
zero, is cleared by a reset and stays while the counter is off. -/
theorem count_is_modular (a : Arguments) (w : ℕ → Control) (t : ℕ) :
    powerUp a.width a.startOperand = some (a.history w 0) ∧
      (count a.width (a.history w t) : ℤ) =
        moved a.direction a.start (steps w t * a.step) % 2 ^ a.width ∧
      (carry a.width (a.history w t) = true ↔
        ∃ j, steps w t = j + 1 ∧
          Wraps a.width a.direction (trunc a.width (moved a.direction a.start (j * a.step))) a.step) ∧
      ((w t).reset = true → carry a.width (a.history w (t + 1)) = false) ∧
      ((w t).reset = false → (w t).on = false →
        carry a.width (a.history w (t + 1)) = carry a.width (a.history w t)) := by
  refine ⟨a.power_up_eq w, ?_⟩
  rw [a.history_eq, a.history_eq w (t + 1)]
  refine ⟨?_, ?_, ?_, ?_⟩
  · rw [a.count_held, trunc_cast]
    rfl
  · cases taken : steps w t with
    | zero =>
      rw [a.carry_held_zero]
      refine iff_of_false Bool.false_ne_true ?_
      rintro ⟨j, none, -⟩
      omega
    | succ k =>
      rw [a.carry_held_succ]
      constructor
      · intro crossed
        exact ⟨k, rfl, crossed⟩
      · rintro ⟨j, same, crossed⟩
        obtain rfl : k = j := by omega
        exact crossed
  · intro reset
    rw [steps, if_pos reset]
    exact a.carry_held_zero
  · intro running off
    rw [steps, if_neg (by simp [running]), if_neg (by simp [off])]

end Pypga.Migen.ModularCount
