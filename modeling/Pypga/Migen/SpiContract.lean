/- GID: Pypga/Migen/SpiContract
   generality: G
   digest: The transfer machine starts its clock generator only as the generator allows. -/

import Pypga.Migen.SpiTransfer

set_option autoImplicit false
set_option relaxedAutoImplicit false

namespace Pypga.Migen.SpiContract

open Pypga.Foundation.ClockedMachine (run Reachable)
open Pypga.Foundation.FixedWidth (trunc trunc_pred)
open Pypga.Migen.Operands (getLength lt_two_pow_get_length)
open Pypga.Migen.SpiMachine
open Pypga.Migen.SpiLockstep
open Pypga.Migen.SpiTransfer (half_cycle)

variable {c : SpiConfig}

/-- The generator is started between two half cycles, before the first edge of the next one. -/
private theorem started_boundary {s : Spi c.dataWidth} (shape : Lockstep c s)
    (start : s.cgStart = true) :
    ∃ f m, f ≠ .idle ∧ 0 < m ∧ s = boundary f m s.reg := by
  cases shape with
  | boundary f m r fits idle second =>
    have positive : 0 < m := of_decide_eq_true start
    have active : f ≠ .idle := by
      intro rest
      have := idle rest
      omega
    exact ⟨f, m, active, positive, rfl⟩
  | ticking f m r j fits active positive begun running => cases start

private theorem counting_ticking {s : Spi c.dataWidth} (shape : Lockstep c s)
    (counting : s.cg.fsm = .counting) :
    ∃ f m j, 1 ≤ j ∧ j ≤ c.clockDiv ∧ s = ticking c.clockDiv f m s.reg j := by
  cases shape with
  | boundary f m r fits idle second => cases counting
  | ticking f m r j fits active positive begun running => exact ⟨f, m, j, begun, running, rfl⟩

private theorem ticking_done {w : ℕ} (div : ℕ) (f : SpiState) (m : ℕ) (r : ShiftRegister w)
    (j : ℕ) :
    (ticking div f m r j).cg.done (ticking div f m r j).cgStart = true ↔ div ≤ j := by
  simp only [ticking, ClockGen.done, Bool.not_false, Bool.and_true, beq_iff_eq]
  omega

private theorem counter_above_zero {s : Spi c.dataWidth} (shape : Lockstep c s)
    (counting : s.cg.fsm = .counting) (unfinished : s.cg.done s.cgStart = false) :
    0 < s.cg.counter ∧ s.cg.counter < 2 ^ getLength (.int c.clockDiv) := by
  have wide := lt_two_pow_get_length c.clockDiv
  obtain ⟨f, m, j, begun, running, at_edge⟩ := counting_ticking shape counting
  have more : ¬ c.clockDiv ≤ j := by
    intro ended
    have done := (ticking_done c.clockDiv f m s.reg j).mpr ended
    rw [← at_edge, unfinished] at done
    cases done
  have left : s.cg.counter = c.clockDiv - j := by rw [at_edge]; rfl
  omega

private theorem counter_decremented {s : Spi c.dataWidth} (shape : Lockstep c s)
    (counting : s.cg.fsm = .counting) (unfinished : s.cg.done s.cgStart = false)
    (i : SpiInput c.dataWidth) : (c.next i s).cg.counter + 1 = s.cg.counter := by
  obtain ⟨above, fits⟩ := counter_above_zero shape counting unfinished
  have less : trunc (getLength (.int c.clockDiv)) ((s.cg.counter : ℤ) - 1) = s.cg.counter - 1 :=
    trunc_pred above fits
  have edge : (c.next i s).cg.counter = s.cg.counter - 1 := by
    simp [SpiConfig.next, ClockGen.next, counting, unfinished, less]
  omega

private theorem done_after_start {s : Spi c.dataWidth} (shape : Lockstep c s) (div : 1 ≤ c.clockDiv)
    (start : s.cgStart = true) (w : ℕ → SpiInput c.dataWidth) (k : ℕ) (inside : k ≤ c.clockDiv) :
    (run c.next s w k).cg.done (run c.next s w k).cgStart = true ↔ k = c.clockDiv := by
  obtain ⟨f, m, active, positive, at_boundary⟩ := started_boundary shape start
  cases k with
  | zero =>
    have silent : s.cg.done s.cgStart = false := by rw [ClockGen.done, start]; simp
    rw [run, silent]
    exact iff_of_false Bool.false_ne_true (by omega)
  | succ j =>
    rw [at_boundary, half_cycle active positive s.reg div w j (by omega), ticking_done]
    omega

/-- The transfer machine keeps to what its clock generator relies on: `start` is a pulse of one
cycle while the generator rests, so that its counter stops at zero and every pulse leads to `done`
after the chosen number of cycles. -/
theorem clock_gen_respected (c : SpiConfig) (width : 2 ≤ c.dataWidth) (div : 1 ≤ c.clockDiv)
    (s : Spi c.dataWidth) (reachable : Reachable c.next c.powerUp s) :
    (s.cgStart = true → s.cg.fsm ≠ .counting) ∧
      (s.cgStart = true → ∀ i, (c.next i s).cgStart = false) ∧
      (s.cg.fsm = .counting → s.cg.done s.cgStart = false →
        0 < s.cg.counter ∧ ∀ i, (c.next i s).cg.counter + 1 = s.cg.counter) ∧
      (s.cgStart = true → ∀ (w : ℕ → SpiInput c.dataWidth) (k : ℕ), k ≤ c.clockDiv →
        ((run c.next s w k).cg.done (run c.next s w k).cgStart = true ↔ k = c.clockDiv)) := by
  have shape := lockstep_reachable (by omega) div reachable
  refine ⟨?_, ?_, ?_, ?_⟩
  · intro start counting
    obtain ⟨f, m, active, positive, at_boundary⟩ := started_boundary shape start
    rw [at_boundary] at counting
    cases counting
  · intro start i
    obtain ⟨f, m, active, positive, at_boundary⟩ := started_boundary shape start
    rw [at_boundary, next_boundary i active positive s.reg div]
    rfl
  · intro counting unfinished
    exact ⟨(counter_above_zero shape counting unfinished).1,
      counter_decremented shape counting unfinished⟩
  · intro start w k inside
    exact done_after_start shape div start w k inside

theorem clock_gen_respected_power_up :
    let c : SpiConfig := ⟨2, 3, 0, 0, 0⟩
    let s := c.next ⟨true, true, false, 0⟩ c.powerUp
    s.cgStart = true ∧ s.cg.fsm ≠ .counting ∧ (∀ i, (c.next i s).cgStart = false) ∧
      ∀ (w : ℕ → SpiInput 2) (k : ℕ), k ≤ 3 →
        ((run c.next s w k).cg.done (run c.next s w k).cgStart = true ↔ k = 3) := by
  intro c s
  have started : s.cgStart = true := by decide
  obtain ⟨resting, pulse, -, after⟩ := clock_gen_respected c (by decide) (by decide) s
    (.step _ .initial)
  exact ⟨started, resting started, pulse started, after started⟩

end Pypga.Migen.SpiContract
