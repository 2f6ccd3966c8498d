/- GID: Pypga/Migen/StoppingCounter
   generality: G
   digest: A counter with a stop holds it if it meets it, and runs past it otherwise. -/

import Pypga.Migen.ModularCount

set_option autoImplicit false
set_option relaxedAutoImplicit false

namespace Pypga.Migen.StoppingCounter

open Pypga.Foundation.ClockedMachine (run run_succ)
open Pypga.Foundation.FixedWidth
open Pypga.Migen.Counter
open Pypga.Migen.ModularCount (Control steps)

/-- The stop lies ahead of the start, and one more step would not leave the range. -/
def Ahead (width start stop step : ℕ) : Direction → Prop
  | .up => start ≤ stop ∧ stop + step < 2 ^ width
  | .down => stop ≤ start ∧ step ≤ stop

structure Arguments extends ModularCount.Arguments where
  stop : ℕ
  positive : 1 ≤ step
  ahead : Ahead width start stop step direction

def Beyond (stop count : ℕ) : Direction → Prop
  | .up => stop ≤ count
  | .down => count ≤ stop

def Near (stop step count : ℕ) : Direction → Prop
  | .up => count < stop + step
  | .down => stop < count + step

namespace Arguments

variable (a : Arguments)

def input (c : Control) : Input := ⟨a.start, some a.stop, a.step, c.reset, c.on⟩

/-- The register `count_with_carry` cycle by cycle from power-up. -/
def history (w : ℕ → Control) : ℕ → ℕ :=
  run (fun c => next a.width a.direction (a.input c)) (trunc (a.width + 1) a.start) w

def distance : ℕ :=
  match a.direction with
  | .up => a.stop - a.start
  | .down => a.start - a.stop

/-- The count after `k` steps. -/
def position (k : ℕ) : ℕ :=
  match a.direction with
  | .up => a.start + k * a.step
  | .down => a.start - k * a.step

/-- What the stop promises in one cycle. -/
structure Stops (w : ℕ → Control) (t : ℕ) : Prop where
  done_iff : done a.width (a.history w t) (some a.stop) = true ↔
    Beyond a.stop (count a.width (a.history w t)) a.direction
  stays : done a.width (a.history w t) (some a.stop) = true → (w t).reset = false →
    count a.width (a.history w (t + 1)) = count a.width (a.history w t)
  near : Near a.stop a.step (count a.width (a.history w t)) a.direction
  carry_low : carry a.width (a.history w t) = false

section Positions

variable {a} {k : ℕ} (close : k * a.step < a.distance + a.step)
include close

private theorem position_lt : a.position k < 2 ^ a.width := by
  have ahead := a.ahead
  have start := a.start_lt
  cases direction : a.direction with
  | up =>
    simp only [Ahead, distance, position, direction] at ahead close ⊢
    omega
  | down =>
    simp only [position, direction]
    omega

private theorem beyond_position :
    Beyond a.stop (a.position k) a.direction ↔ a.distance ≤ k * a.step := by
  have ahead := a.ahead
  cases direction : a.direction with
  | up =>
    simp only [Ahead, Beyond, distance, position, direction] at ahead ⊢
    omega
  | down =>
    simp only [Ahead, Beyond, distance, position, direction] at ahead close ⊢
    omega

private theorem position_eq_stop : a.position k = a.stop ↔ k * a.step = a.distance := by
  have ahead := a.ahead
  cases direction : a.direction with
  | up =>
    simp only [Ahead, distance, position, direction] at ahead ⊢
    omega
  | down =>
    simp only [Ahead, distance, position, direction] at ahead close ⊢
    omega

private theorem near_position : Near a.stop a.step (a.position k) a.direction := by
  have ahead := a.ahead
  cases direction : a.direction with
  | up =>
    simp only [Ahead, Near, distance, position, direction] at ahead close ⊢
    omega
  | down =>
    simp only [Ahead, Near, distance, position, direction] at ahead close ⊢
    omega

private theorem trunc_position : trunc (a.width + 1) (a.position k) = a.position k := by
  have double : 2 ^ (a.width + 1) = 2 * 2 ^ a.width := pow_succ' 2 a.width
  have inside := position_lt close
  exact trunc_of_fits (by omega)

private theorem count_position : count a.width (a.position k) = a.position k :=
  Nat.mod_eq_of_lt (position_lt close)

private theorem carry_position : carry a.width (a.position k) = false := by
  have double : 2 ^ (a.width + 1) = 2 * 2 ^ a.width := pow_succ' 2 a.width
  have inside := position_lt close
  rw [Bool.eq_false_iff, Ne, carry_iff (by omega)]
  omega

private theorem done_position : done a.width (a.position k)
    (some a.stop) = decide (k * a.step = a.distance) := by
  rw [done, Option.any_some, count_position close]
  exact decide_eq_decide.mpr (position_eq_stop close)

end Positions

section Edges

variable {a} {k : ℕ}

private theorem moved_position (before : k * a.step < a.distance) :
    moved a.direction (a.position k) a.step = a.position (k + 1) := by
  have ahead := a.ahead
  cases direction : a.direction with
  | up =>
    simp only [moved, position, direction, Nat.succ_mul]
    push_cast
    ring
  | down =>
    simp only [Ahead, distance, direction] at ahead before
    simp only [moved, position, direction, Nat.succ_mul]
    omega

private theorem position_zero : trunc (a.width + 1) a.start = a.position 0 := by
  have double : 2 ^ (a.width + 1) = 2 * 2 ^ a.width := pow_succ' 2 a.width
  have start := a.start_lt
  rw [trunc_of_fits (by omega)]
  cases direction : a.direction <;> simp [position, direction]

private theorem next_position (within : k * a.step ≤ a.distance) (c : Control) :
    next a.width a.direction (a.input c) (a.position k) =
      if c.reset then a.position 0
      else if c.on = true ∧ k * a.step ≠ a.distance then a.position (k + 1) else a.position k := by
  have positive := a.positive
  have close : k * a.step < a.distance + a.step := by omega
  have at_stop : done a.width (a.position k) (a.input c).stop = decide (k * a.step = a.distance) :=
    done_position close
  rw [next, stepping, at_stop]
  show (if c.reset then _ else if !decide _ && c.on then trunc _ (moved _ _ a.step) else _) = _
  by_cases reset : c.reset = true
  · rw [if_pos reset, if_pos reset]
    exact position_zero
  · rw [if_neg reset, if_neg reset]
    by_cases steps : c.on = true ∧ k * a.step ≠ a.distance
    · have before : k * a.step < a.distance := by omega
      have after : (k + 1) * a.step < a.distance + a.step := by
        rw [Nat.succ_mul]
        omega
      rw [if_pos (by simp [steps]), if_pos steps, count_position close]
      exact (congrArg _ (moved_position before)).trans (trunc_position after)
    · rw [if_neg, if_neg steps]
      intro enabled
      rw [Bool.and_eq_true, Bool.not_eq_true', decide_eq_false_iff_not] at enabled
      exact steps enabled.symm

end Edges

section Runs

variable {a} {w : ℕ → Control} {t : ℕ}

private theorem history_succ (t : ℕ) :
    a.history w (t + 1) = next a.width a.direction (a.input (w t)) (a.history w t) :=
  run_succ _ _ _ t

private theorem stops_of_position {k : ℕ} (within : k * a.step ≤ a.distance)
    (held : a.history w t = a.position k) : a.Stops w t := by
  have positive := a.positive
  have close : k * a.step < a.distance + a.step := by omega
  refine ⟨?_, ?_, ?_, ?_⟩
  · rw [held, done_position close, count_position close, beyond_position close, decide_eq_true_iff]
    omega
  · intro done running
    rw [held, done_position close, decide_eq_true_iff] at done
    rw [history_succ, held, next_position within, if_neg (by simp [running]), if_neg]
    rintro ⟨-, elsewhere⟩
    exact elsewhere done
  · rw [held, count_position close]
    exact near_position close
  · rw [held]
    exact carry_position close

private theorem not_stops_of_position {k : ℕ} (close : k * a.step < a.distance + a.step)
    (behind : a.distance < k * a.step) (held : a.history w t = a.position k) : ¬ a.Stops w t := by
  intro stops
  have missed := stops.done_iff
  rw [held, done_position close, count_position close, beyond_position close, decide_eq_true_iff]
    at missed
  have reached := missed.mpr behind.le
  omega

private theorem held_of_dvd (divides : a.step ∣ a.distance) (t : ℕ) :
    ∃ k, k * a.step ≤ a.distance ∧ a.history w t = a.position k := by
  obtain ⟨q, whole⟩ := divides
  rw [Nat.mul_comm] at whole
  have positive := a.positive
  induction t with
  | zero => exact ⟨0, by omega, position_zero⟩
  | succ t ih =>
    obtain ⟨k, within, held⟩ := ih
    rw [history_succ, held, next_position within]
    split
    · exact ⟨0, by omega, rfl⟩
    · split
      · rename_i enabled
        have before : k < q := by
          by_contra late
          have far := Nat.mul_le_mul_right a.step (Nat.not_lt.mp late)
          omega
        exact ⟨k + 1, whole ▸ Nat.mul_le_mul_right a.step before, rfl⟩
      · exact ⟨k, within, rfl⟩

private theorem held_of_before (before : ∀ u < t, steps w u * a.step < a.distance) :
    a.history w t = a.position (steps w t) := by
  induction t with
  | zero => exact position_zero
  | succ t ih =>
    have held := ih fun u earlier => before u (by omega)
    have running := before t (by omega)
    rw [history_succ, held, next_position running.le, steps]
    cases reset : (w t).reset with
    | true => rfl
    | false =>
      cases on : (w t).on with
      | true => simp [running.ne]
      | false => rfl

private theorem close_of_before (before : ∀ u < t, steps w u * a.step < a.distance) :
    steps w t * a.step < a.distance + a.step := by
  have positive := a.positive
  cases t with
  | zero => simp only [steps, Nat.zero_mul]; omega
  | succ t =>
    have last := before t (Nat.lt_succ_self t)
    rw [steps]
    split
    · omega
    · split
      · rw [Nat.succ_mul]
        omega
      · omega

end Runs

end Arguments

open Arguments

/-- Up to any cycle of any run the counter stops at its stop exactly if the step divides the distance
to the stop, or the enabled steps since power-up or a reset have not reached the stop yet. -/
theorem counter_stops_iff (a : Arguments) (w : ℕ → Control) (n : ℕ) :
    (∀ t ≤ n, a.Stops w t) ↔
      a.step ∣ a.distance ∨ ∀ t ≤ n, steps w t * a.step < a.distance := by
  constructor
  · intro stops
    by_cases divides : a.step ∣ a.distance
    · exact .inl divides
    · refine .inr fun t => ?_
      -- the first cycle at which the steps have reached the stop would have missed it
      induction t using Nat.strong_induction_on with
      | h t ih =>
        intro early
        have before : ∀ u < t, steps w u * a.step < a.distance := fun u earlier =>
          ih u earlier (by omega)
        by_contra late
        have elsewhere : steps w t * a.step ≠ a.distance := by
          intro met
          exact divides ⟨steps w t, by rw [← met, Nat.mul_comm]⟩
        exact not_stops_of_position (close_of_before before) (by omega) (held_of_before before)
          (stops t early)
  · rintro (divides | before) t early
    · obtain ⟨k, within, held⟩ := held_of_dvd (w := w) divides t
      exact stops_of_position within held
    · have held := held_of_before (a := a) fun u (earlier : u < t) => before u (by omega)
      exact stops_of_position (before t early).le held

def byTwos : Arguments where
  width := 8
  direction := .up
  startOperand := .int 0
  start := 0
  step := 2
  initial := rfl
  start_lt := by decide
  step_le := by decide
  stop := 5
  positive := by decide
  ahead := by
    show 0 ≤ 5 ∧ 5 + 2 < 2 ^ 8
    decide

/-- From four the count goes to six, seen as not done, and on. -/
theorem counter_stops_counterexample :
    (List.range 6).map (byTwos.history fun _ => ⟨false, true⟩) = [0, 2, 4, 6, 8, 10] ∧
      (List.range 6).map (fun t => done 8 (byTwos.history (fun _ => ⟨false, true⟩) t) (some 5)) =
        [false, false, false, false, false, false] ∧
      ¬ byTwos.Stops (fun _ => ⟨false, true⟩) 3 := by
  refine ⟨by decide, by decide, ?_⟩
  intro stops
  have behind : Beyond 5 6 .up := Nat.le_succ 5
  have high : done 8 6 (some 5) = true := stops.done_iff.mpr behind
  cases high

end Pypga.Migen.StoppingCounter
