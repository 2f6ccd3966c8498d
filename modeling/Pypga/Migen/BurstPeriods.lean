/- GID: Pypga/Migen/BurstPeriods
   generality: G
   digest: A burst from rest keeps its period exactly if it is at least three cycles long. -/

import Pypga.Migen.BurstSchedule
import Pypga.Migen.BurstSpacing

set_option autoImplicit false
set_option relaxedAutoImplicit false

namespace Pypga.Migen.BurstPeriods

open Pypga.Foundation.ClockedMachine (run run_succ)
open Pypga.Foundation.FixedWidth (trunc)
open Pypga.Foundation.Waveform (times mem_times times_sorted)
open Pypga.Migen.Operands (getLength)
open Pypga.Migen.PulseGenerators
open Pypga.Migen.BurstDecomposition (labels)
open Pypga.Migen.BurstSpacing (Consecutive)
open Pypga.Migen.BurstWindows
open Pypga.Migen.BurstSchedule

/-- Consecutive out pulses in the cycles `lo ≤ u ≤ hi` are `period` cycles apart. -/
def SpacedBy (period : ℕ) (r : ℕ → BurstGen) (lo hi : ℕ) : Prop :=
  ∀ u v, lo ≤ u → v ≤ hi → Consecutive r u v → v = u + period

private theorem spaced_by_of_times {r : ℕ → BurstGen} {lo hi period n : ℕ} (positive : 0 < period)
    (pulses : times (fun u => (r u).out) lo (hi + 1) = (List.range n).map fun k => lo + k * period) :
    SpacedBy period r lo hi := by
  have pulse_iff (u : ℕ) (after : lo ≤ u) (before : u ≤ hi) :
      (r u).out = true ↔ ∃ k < n, lo + k * period = u := by
    have member : u ∈ times (fun u => (r u).out) lo (hi + 1) ↔ _ := mem_times
    rw [pulses, List.mem_map] at member
    simp only [List.mem_range] at member
    rw [member]
    constructor
    · intro high
      exact ⟨after, by omega, high⟩
    · exact fun pulse => pulse.2.2
  rintro u v after before ⟨later, first, second, quiet⟩
  obtain ⟨i, -, rfl⟩ := (pulse_iff u after (by omega)).mp first
  obtain ⟨j, few, rfl⟩ := (pulse_iff v (by omega) before).mp second
  have order : i < j := by
    by_contra backwards
    have le := Nat.mul_le_mul_right period (Nat.le_of_not_lt backwards)
    omega
  rcases Nat.lt_or_eq_of_le (Nat.succ_le_of_lt order) with gap | next
  · -- the pulse after the first one comes before the second one
    have step : (i + 1) * period = i * period + period := Nat.succ_mul i period
    have below := Nat.mul_le_mul_right period (Nat.succ_le_of_lt gap)
    rw [Nat.succ_mul] at below
    have low := quiet (lo + (i + 1) * period) (by omega) (by omega)
    have high := (pulse_iff (lo + (i + 1) * period) (by omega) (by omega)).mpr ⟨i + 1, by omega, rfl⟩
    rw [low] at high
    cases high
  · rw [← next, Nat.succ_mul]
    omega

section Window

variable {c : BurstConfig} {w : ℕ → BurstInput} {s : BurstGen} (clear : ∀ k, (w k).reset = false)
variable (bounded : Bounded c s) {t e : ℕ}
variable (window : Window (run c.next s w) (fun k => (w k).trigger) t e)
include clear window

/-- Whatever the period is, no pulse comes two cycles after the first one of a burst from rest. -/
private theorem third_cycle_low (idle : (run c.next s w t).busy = false)
    (off : (run c.next s w t).pulsegenOn = false) :
    (run c.next s w (t + 1)).out = true ∧ (run c.next s w (t + 3)).out = false := by
  obtain ⟨busy, out, -⟩ := next_accepted (c := c) (clear t) window.accepted.1 (.inl idle)
  rw [← run_succ c.next s w t] at busy out
  have inner : (run c.next s w (t + 1)).pulsegen.out = false ∧
      (run c.next s w (t + 1)).pulsegen.carry = false := by
    rw [run_succ, next_pulsegen, off]
    simp [PulseGenConfig.next, BurstConfig.pulsegen]
  have again : (run c.next s w (t + 2)).pulsegen.out = false := by
    rw [run_succ, next_pulsegen, PulseGenConfig.next, inner.2]
    dsimp only
    split_ifs <;> rfl
  obtain ⟨still, -, -⟩ := next_hold (c := c) (clear (t + 1)) busy inner.1
  rw [← run_succ c.next s w (t + 1)] at still
  obtain ⟨-, low, -⟩ := next_hold (c := c) (clear (t + 2)) still again
  rw [← run_succ c.next s w (t + 2)] at low
  exact ⟨out, low⟩

include bounded in
private theorem later_pulse (several : trunc (getLength c.pulses) (w t).pulses ≠ 0) :
    ∃ v, t + 1 < v ∧ v ≤ e ∧ (run c.next s w v).out = true := by
  have size := congrArg List.length (window_labels clear bounded window)
  rw [labels, List.length_map, countdown_length] at size
  have sorted := times_sorted (fun u => (run c.next s w u).out) (t + 1) (e + 1)
  rw [List.pairwise_iff_getElem] at sorted
  have order := sorted 0 1 (by omega) (by omega) (by decide)
  obtain ⟨first, -, -⟩ := mem_times.mp (List.getElem_mem (show 0 < (times
    (fun u => (run c.next s w u).out) (t + 1) (e + 1)).length by omega))
  obtain ⟨-, before, pulse⟩ := mem_times.mp (List.getElem_mem (show 1 < (times
    (fun u => (run c.next s w u).out) (t + 1) (e + 1)).length by omega))
  exact ⟨_, lt_of_le_of_lt first order, by omega, pulse⟩

variable {q : ℕ} (steady : ∀ u, t ≤ u → u ≤ e → trunc (getLength c.period) (w u).period = q)
variable (idle : (run c.next s w t).busy = false) (off : (run c.next s w t).pulsegenOn = false)
include bounded steady idle off

theorem spaced_by_iff :
    SpacedBy (q + 2) (run c.next s w) (t + 1) e ↔
      1 ≤ q ∨ trunc (getLength c.pulses) (w t).pulses = 0 := by
  by_cases positive : 1 ≤ q
  · refine iff_of_true ?_ (.inl positive)
    exact spaced_by_of_times (by omega) (window_pulses clear bounded steady positive window idle off)
  · obtain rfl : q = 0 := by omega
    rw [or_iff_right positive]
    obtain ⟨first, third⟩ := third_cycle_low clear window idle off
    constructor
    · intro spaced
      by_contra several
      have later := later_pulse clear bounded window several
      classical
      obtain ⟨after, before, pulse⟩ := Nat.find_spec later
      have next := spaced (t + 1) (Nat.find later) le_rfl before ⟨after, first, pulse, ?_⟩
      · rw [next] at pulse
        rw [third] at pulse
        cases pulse
      · intro v earlier afterwards
        have none := Nat.find_min later earlier
        rw [Bool.eq_false_iff]
        intro high
        exact none ⟨afterwards, by omega, high⟩
    · rintro single u v after before ⟨later, here, there, -⟩
      have size := congrArg List.length (window_labels clear bounded window)
      rw [labels, List.length_map, countdown_length, single] at size
      obtain ⟨x, only⟩ := List.length_eq_one_iff.mp size
      have members : ∀ k, t + 1 ≤ k → k ≤ e → (run c.next s w k).out = true → k = x := by
        intro k low high pulse
        have member := mem_times (p := fun u => (run c.next s w u).out).mpr
          ⟨low, Nat.lt_succ_of_le high, pulse⟩
        rw [only] at member
        exact List.mem_singleton.mp member
      have same := (members u after (by omega) here).trans (members v (by omega) before there).symm
      omega

end Window

end Pypga.Migen.BurstPeriods
