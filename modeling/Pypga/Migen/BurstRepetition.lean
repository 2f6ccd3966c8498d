/- GID: Pypga/Migen/BurstRepetition
   generality: G
   digest: Bursts that are triggered again at their end follow each other without a gap. -/

import Pypga.Migen.BurstSchedule

set_option autoImplicit false
set_option relaxedAutoImplicit false

namespace Pypga.Migen.BurstRepetition

open Pypga.Foundation.ClockedMachine (run run_succ)
open Pypga.Foundation.FixedWidth (trunc)
open Pypga.Migen.Operands (getLength)
open Pypga.Migen.PulseGenerators
open Pypga.Migen.BurstWindows
open Pypga.Migen.BurstSchedule

variable {c : BurstConfig}

section Step

variable {i : BurstInput} {s : BurstGen} {q : ℕ} (clear : i.reset = false)
include clear

private theorem at_again (value : trunc (getLength c.period) i.period = q) (positive : 1 ≤ q)
    (bounded : Bounded c s) (trigger : i.trigger = true) (here : At c q 0 (q + 1) s) :
    At c q (trunc (getLength c.pulses) i.pulses) 0 (c.next i s) := by
  have pulse : s.pulsegen.out = true := by
    rw [here.inner, phase_out]
    omega
  obtain ⟨busy, out, count⟩ := next_accepted (c := c) clear trigger (.inr ⟨here.busy, pulse, here.count⟩)
  refine ⟨busy, iff_of_true out rfl, count, ?_⟩
  rw [next_pulsegen, bounded.enabled here.busy, here.inner]
  exact phase_wrap (g := c.pulsegen) value positive

private theorem at_over (quiet : i.trigger = false) (here : At c q 0 (q + 1) s) :
    (c.next i s).busy = false ∧ (c.next i s).count = 0 := by
  have pulse : s.pulsegen.out = true := by
    rw [here.inner, phase_out]
    omega
  simp [BurstConfig.next, clear, here.busy, pulse, here.count, quiet]

private theorem rest_next (quiet : i.trigger = false) (rest : s.busy = false ∧ s.count = 0) :
    (c.next i s).busy = false ∧ (c.next i s).count = 0 := by
  simp [BurstConfig.next, clear, quiet, rest.1, rest.2]

end Step

section Run

variable {w : ℕ → BurstInput} {s : BurstGen} (clear : ∀ k, (w k).reset = false)
include clear

theorem rests {b q : ℕ} (last : At c q 0 (q + 1) (run c.next s w b)) (k : ℕ)
    (quiet : ∀ u, b ≤ u → u ≤ b + k → (w u).trigger = false) :
    (run c.next s w (b + k + 1)).busy = false ∧ (run c.next s w (b + k + 1)).count = 0 := by
  induction k with
  | zero =>
    rw [run_succ]
    exact at_over (clear _) (quiet b le_rfl (by omega)) last
  | succ k ih =>
    have before := ih fun u after earlier => quiet u after (by omega)
    rw [run_succ]
    exact rest_next (clear _) (quiet _ (by omega) le_rfl) before

variable (bounded : Bounded c s) {b e n q : ℕ}
variable (steady : ∀ u, b ≤ u → u < e → trunc (getLength c.period) (w u).period = q)
variable (pulses : ∀ u, b ≤ u → u < e → trunc (getLength c.pulses) (w u).pulses = n)
variable (positive : 1 ≤ q) (start : At c q n 0 (run c.next s w b))
include bounded steady positive start

private theorem at_last (inside : b + (n * (q + 2) + (q + 1)) ≤ e) :
    At c q 0 (q + 1) (run c.next s w (b + (n * (q + 2) + (q + 1)))) := by
  have last := at_cycle clear bounded steady positive start n (q + 1) le_rfl le_rfl inside
  rwa [Nat.sub_self] at last

include pulses in
theorem at_repeated (r : ℕ) (inside : b + r * ((n + 1) * (q + 2)) ≤ e)
    (triggers : ∀ k < r, (w (b + k * ((n + 1) * (q + 2)) + (n * (q + 2) + (q + 1)))).trigger = true) :
    At c q n 0 (run c.next s w (b + r * ((n + 1) * (q + 2)))) := by
  induction r with
  | zero =>
    rw [Nat.zero_mul]
    exact start
  | succ r ih =>
    have whole : (n + 1) * (q + 2) = n * (q + 2) + (q + 1) + 1 := by
      rw [Nat.succ_mul]
      omega
    have distance : b + (r + 1) * ((n + 1) * (q + 2)) =
        b + r * ((n + 1) * (q + 2)) + (n * (q + 2) + (q + 1)) + 1 := by
      rw [Nat.succ_mul]
      omega
    have before := ih (by omega) fun k earlier => triggers k (by omega)
    have last := at_last clear bounded (fun u after => steady u (by omega)) positive before (by omega)
    have again := at_again (clear _) (steady _ (by omega) (by omega)) positive
      (bounded_run w bounded _) (triggers r (Nat.lt_succ_self r)) last
    rw [pulses _ (by omega) (by omega)] at again
    rw [distance]
    exact again

end Run

end Pypga.Migen.BurstRepetition
