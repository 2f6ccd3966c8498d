/- GID: Pypga/Migen/Counter
   generality: G
   digest: The counter up or down with its carry bit, and its values under constant operands. -/

import Mathlib.Data.Nat.Bitwise
import Mathlib.Tactic.Ring
import Pypga.Foundation.ClockedMachine
import Pypga.Foundation.FixedWidth

set_option autoImplicit false
set_option relaxedAutoImplicit false

namespace Pypga.Migen.Counter

open Pypga.Foundation.FixedWidth

inductive Direction
  | up
  | down
  deriving DecidableEq

/-- The signals at the counter in one cycle; without `stop` it never stops. -/
structure Input where
  start : ℕ
  stop : Option ℕ
  step : ℕ
  reset : Bool
  on : Bool

section Outputs

-- the state is the register `count_with_carry`
variable (width s : ℕ)

def count : ℕ := s % 2 ^ width

def carry : Bool := s.testBit width

def done (stop : Option ℕ) : Bool := stop.any fun stop => count width s = stop

end Outputs

def moved : Direction → ℕ → ℕ → ℤ
  | .up, count, step => count + step
  | .down, count, step => count - step

def stepping (width : ℕ) (i : Input) (s : ℕ) : Bool := !done width s i.stop && i.on

def Wraps (width : ℕ) : Direction → ℕ → ℕ → Prop
  | .up, count, step => 2 ^ width ≤ count + step
  | .down, count, step => count < step

def next (width : ℕ) (direction : Direction) (i : Input) (s : ℕ) : ℕ :=
  if i.reset then trunc (width + 1) i.start
  else if stepping width i s then trunc (width + 1) (moved direction (count width s) i.step)
  else s

section Steps

variable {width : ℕ}

theorem carry_iff {s : ℕ} (fits : s < 2 ^ (width + 1)) : carry width s = true ↔ 2 ^ width ≤ s := by
  constructor
  · exact Nat.ge_two_pow_of_testBit
  · intro large
    exact Nat.testBit_of_two_pow_le_and_two_pow_add_one_gt large fits

private theorem count_trunc (x : ℤ) : count width (trunc (width + 1) x) = trunc width x := by
  have cast : (count width (trunc (width + 1) x) : ℤ) = trunc width x := by
    rw [count, Int.natCast_mod, trunc_cast, trunc_cast]
    push_cast
    exact Int.emod_emod_of_dvd x (pow_dvd_pow 2 (Nat.le_succ width))
  exact_mod_cast cast

private theorem carry_moved (direction : Direction) {c step : ℕ} (inside : c < 2 ^ width)
    (small : step ≤ 2 ^ width) :
    carry width (trunc (width + 1) (moved direction c step)) = true ↔ Wraps width direction c step := by
  rw [carry_iff (trunc_lt _ _)]
  have power : 2 ^ (width + 1) = 2 * 2 ^ width := by rw [pow_succ']
  cases direction with
  | up =>
    have cast : moved .up c step = ((c + step : ℕ) : ℤ) := by simp [moved]
    rw [cast, trunc_of_fits (by omega), Wraps]
  | down =>
    rw [Wraps]
    rcases Nat.lt_or_ge c step with borrow | enough
    · have cast : moved .down c step =
          ((c + 2 ^ (width + 1) - step : ℕ) : ℤ) - 2 ^ (width + 1) := by
        rw [Nat.cast_sub (by omega)]
        push_cast [moved]
        ring
      have value : trunc (width + 1) (moved .down c step) = c + 2 ^ (width + 1) - step := by
        rw [cast, trunc, Int.sub_emod_right, ← trunc, trunc_of_fits (by omega)]
      rw [value]
      omega
    · have cast : moved .down c step = ((c - step : ℕ) : ℤ) := by
        rw [moved, Nat.cast_sub enough]
      rw [cast, trunc_of_fits (by omega)]
      omega

theorem moved_zero (direction : Direction) (c : ℕ) : moved direction c 0 = c := by
  cases direction <;> simp [moved]

theorem moved_add (direction : Direction) (c j k : ℕ) :
    moved direction c (j + k) = moved direction c j + moved direction 0 k := by
  cases direction <;> push_cast [moved] <;> ring

private theorem moved_eq_add (direction : Direction) (c step : ℕ) :
    moved direction c step = c + moved direction 0 step := by
  rw [← Nat.zero_add step, moved_add, moved_zero, Nat.zero_add]

section Unstopped

-- the register after `k` steps without a reset
variable {direction : Direction} {start step : ℕ} {held : ℕ → ℕ}
variable (first : held 0 = trunc (width + 1) start)
variable (later : ∀ k, held (k + 1) = trunc (width + 1) (moved direction (count width (held k)) step))
include first later

theorem count_steps (k : ℕ) : count width (held k) = trunc width (moved direction start (k * step)) := by
  induction k with
  | zero => rw [first, count_trunc, Nat.zero_mul, moved_zero]
  | succ k ih =>
    rw [later, count_trunc, moved_eq_add, ih, Nat.succ_mul, moved_add, trunc_add]

theorem carry_steps (small : step ≤ 2 ^ width) (k : ℕ) :
    carry width (held (k + 1)) = true ↔
      Wraps width direction (trunc width (moved direction start (k * step))) step := by
  rw [← count_steps first later, later]
  exact carry_moved direction (Nat.mod_lt _ (Nat.two_pow_pos _)) small

end Unstopped

end Steps

end Pypga.Migen.Counter
