/- GID: Pypga/Migen/BurstSchedule
   generality: G
   digest: The cycles of a burst from rest, when the period does not change until its end. -/

import Pypga.Migen.BurstWindows

set_option autoImplicit false
set_option relaxedAutoImplicit false

namespace Pypga.Migen.BurstSchedule

open Pypga.Foundation.ClockedMachine (run run_succ)
open Pypga.Foundation.FixedWidth (trunc trunc_add trunc_lt trunc_pred)
open Pypga.Foundation.Waveform (times times_windows)
open Pypga.Migen.Operands (getLength)
open Pypga.Migen.PulseGenerators
open Pypga.Migen.BurstWindows

/-- The inner generator `m` cycles after a pulse of the outer one, when it counts from `q`. -/
def phase (width q m : ℕ) : PulseGen :=
  if m < q then ⟨false, q - 1 - m, false⟩
  else if m = q then ⟨false, 2 ^ width - 1, true⟩
  else ⟨true, q, false⟩

theorem phase_out {width q m : ℕ} : (phase width q m).out = true ↔ q < m := by
  unfold phase
  split
  · rename_i less
    exact iff_of_false Bool.false_ne_true (by omega)
  · split
    · rename_i same
      exact iff_of_false Bool.false_ne_true (by omega)
    · exact iff_of_true rfl (by omega)

section Phases

variable {g : PulseGenConfig} {period : ℤ} {q : ℕ} (value : trunc (getLength g.period) period = q)
variable (positive : 1 ≤ q)
include value positive

private theorem phase_off (low : g.highAfterOn = false) (offset : g.firstCyclePeriodOffset = 1)
    (s : PulseGen) :
    g.next period false s = phase (getLength g.period) q 0 := by
  have first : trunc (getLength g.period) (period - 1) = q - 1 := by
    have fits := trunc_lt (getLength g.period) period
    rw [Int.sub_eq_add_neg, ← trunc_add, value, ← Int.sub_eq_add_neg]
    exact trunc_pred positive (by omega)
  simp [PulseGenConfig.next, low, offset, first, phase, show 0 < q by omega]

omit positive in
private theorem phase_succ {m : ℕ} (inside : m ≤ q) :
    g.next period true (phase (getLength g.period) q m) = phase (getLength g.period) q (m + 1) := by
  have fits := trunc_lt (getLength g.period) period
  rw [value] at fits
  rcases Nat.lt_or_eq_of_le inside with less | rfl
  · have here : phase (getLength g.period) q m = ⟨false, q - 1 - m, false⟩ := if_pos less
    rw [here, pulsegen_countdown g period _ rfl (by dsimp only; omega)]
    by_cases last : q - 1 - m = 0
    · have next : phase (getLength g.period) q (m + 1) = ⟨false, 2 ^ getLength g.period - 1, true⟩ := by
        rw [phase, if_neg (by omega), if_pos (by omega)]
      rw [if_pos last, next]
    · have next : phase (getLength g.period) q (m + 1) = ⟨false, q - 1 - (m + 1), false⟩ :=
        if_pos (by omega)
      rw [if_neg last, next, Nat.sub_add_eq]
  · have here : phase (getLength g.period) m m = ⟨false, 2 ^ getLength g.period - 1, true⟩ := by
      rw [phase, if_neg (lt_irrefl m), if_pos rfl]
    have next : phase (getLength g.period) m (m + 1) = ⟨true, m, false⟩ := by
      rw [phase, if_neg (by omega), if_neg (by omega)]
    rw [here, next]
    simp [PulseGenConfig.next, value]

theorem phase_wrap :
    g.next period true (phase (getLength g.period) q (q + 1)) = phase (getLength g.period) q 0 := by
  have fits := trunc_lt (getLength g.period) period
  rw [value] at fits
  have here : phase (getLength g.period) q (q + 1) = ⟨true, q, false⟩ := by
    rw [phase, if_neg (by omega), if_neg (by omega)]
  have next : phase (getLength g.period) q 0 = ⟨false, q - 1, false⟩ := if_pos (by omega)
  rw [here, pulsegen_countdown g period _ rfl fits, next, if_neg (by dsimp only; omega)]

end Phases

variable {c : BurstConfig}

/-- A burst `m` cycles after its pulse with the label `label`. -/
structure At (c : BurstConfig) (q label m : ℕ) (s : BurstGen) : Prop where
  busy : s.busy = true
  out : s.out = true ↔ m = 0
  count : s.count = label
  inner : s.pulsegen = phase (getLength c.period) q m

section Step

variable {i : BurstInput} {s : BurstGen} {q label : ℕ} (clear : i.reset = false)
variable (value : trunc (getLength c.period) i.period = q)
include clear value

private theorem at_succ (bounded : Bounded c s) {m : ℕ} (inside : m ≤ q) (here : At c q label m s) :
    At c q label (m + 1) (c.next i s) := by
  have quiet : s.pulsegen.out = false := by
    rw [here.inner, Bool.eq_false_iff, Ne, phase_out]
    omega
  obtain ⟨busy, out, count⟩ := next_hold (c := c) clear here.busy quiet
  refine ⟨busy, iff_of_false (by rw [out]; exact Bool.false_ne_true) (by omega), ?_, ?_⟩
  · rw [count, here.count]
  · rw [next_pulsegen, bounded.enabled here.busy, here.inner]
    exact phase_succ (g := c.pulsegen) value inside

private theorem at_wrap (positive : 1 ≤ q) (bounded : Bounded c s)
    (here : At c q (label + 1) (q + 1) s) :
    At c q label 0 (c.next i s) := by
  have pulse : s.pulsegen.out = true := by
    rw [here.inner, phase_out]
    omega
  have left : s.count ≠ 0 := by
    rw [here.count]
    omega
  obtain ⟨busy, out, count⟩ := next_tick bounded clear here.busy pulse left
  refine ⟨busy, iff_of_true out rfl, ?_, ?_⟩
  · rw [count, here.count, Nat.add_sub_cancel]
  · rw [next_pulsegen, bounded.enabled here.busy, here.inner]
    exact phase_wrap (g := c.pulsegen) value positive

theorem at_start (positive : 1 ≤ q) (trigger : i.trigger = true) (idle : s.busy = false)
    (off : s.pulsegenOn = false) : At c q (trunc (getLength c.pulses) i.pulses) 0 (c.next i s) := by
  obtain ⟨busy, out, count⟩ := next_accepted (c := c) clear trigger (.inl idle)
  refine ⟨busy, iff_of_true out rfl, count, ?_⟩
  rw [next_pulsegen, off]
  exact phase_off (g := c.pulsegen) value positive rfl rfl s.pulsegen

end Step

theorem off_of_rested {w : ℕ → BurstInput} {s : BurstGen} (clear : ∀ k, (w k).reset = false) {t : ℕ}
    (off : s.pulsegenOn = false) (idle : (run c.next s w t).busy = false)
    (rested : t = 0 ∨ (run c.next s w (t - 1)).busy = false) :
    (run c.next s w t).pulsegenOn = false := by
  cases t with
  | zero => exact off
  | succ t =>
    have before : (run c.next s w t).busy = false := by
      rcases rested with zero | before
      · cases zero
      · exact before
    rw [run_succ] at idle ⊢
    cases trigger : (w t).trigger with
    | true =>
      rw [(next_accepted (c := c) (clear t) trigger (.inl before)).1] at idle
      cases idle
    | false => simp [BurstConfig.next, clear t, before, trigger]

section Countdown

variable {w : ℕ → BurstInput} {s : BurstGen} (clear : ∀ k, (w k).reset = false)
variable (bounded : Bounded c s) {b e q : ℕ}
variable (steady : ∀ u, b ≤ u → u < e → trunc (getLength c.period) (w u).period = q)
include clear bounded steady

private theorem at_within {label : ℕ} (start : At c q label 0 (run c.next s w b)) (m : ℕ)
    (short : m ≤ q + 1) (inside : b + m ≤ e) : At c q label m (run c.next s w (b + m)) := by
  induction m with
  | zero => exact start
  | succ m ih =>
    have here := ih (by omega) (by omega)
    have now := steady (b + m) (by omega) (by omega)
    exact at_succ (clear _) now (bounded_run w bounded _) (by omega) here

variable (positive : 1 ≤ q)
include positive

private theorem at_label {n : ℕ} (start : At c q n 0 (run c.next s w b)) (i : ℕ) (few : i ≤ n)
    (inside : b + i * (q + 2) ≤ e) : At c q (n - i) 0 (run c.next s w (b + i * (q + 2))) := by
  induction i with
  | zero =>
    rw [Nat.zero_mul]
    exact start
  | succ i ih =>
    have distance : b + (i + 1) * (q + 2) = b + i * (q + 2) + (q + 1) + 1 := by
      rw [Nat.succ_mul]
      omega
    have before := ih (by omega) (by omega)
    have last := at_within clear bounded (fun u after => steady u (by omega)) before (q + 1) le_rfl
      (by omega)
    have label : n - i = n - (i + 1) + 1 := by omega
    rw [label] at last
    rw [distance]
    exact at_wrap (clear _) (steady _ (by omega) (by omega)) positive (bounded_run w bounded _) last

theorem at_cycle {n : ℕ} (start : At c q n 0 (run c.next s w b)) (i m : ℕ) (few : i ≤ n)
    (short : m ≤ q + 1) (inside : b + (i * (q + 2) + m) ≤ e) :
    At c q (n - i) m (run c.next s w (b + (i * (q + 2) + m))) := by
  have pulse := at_label clear bounded steady positive start i few (by omega)
  rw [← Nat.add_assoc]
  exact at_within clear bounded (fun u after => steady u (by omega)) pulse m short (by omega)

end Countdown

section Run

variable {w : ℕ → BurstInput} {s : BurstGen} (clear : ∀ k, (w k).reset = false)
variable (bounded : Bounded c s) {t e q : ℕ}
variable (steady : ∀ u, t ≤ u → u ≤ e → trunc (getLength c.period) (w u).period = q)
variable (positive : 1 ≤ q)
variable (window : Window (run c.next s w) (fun k => (w k).trigger) t e)
variable (idle : (run c.next s w t).busy = false) (off : (run c.next s w t).pulsegenOn = false)
include clear bounded positive window idle off steady

/-- Every cycle of the burst, until its last label is over. -/
theorem at_phase (i m : ℕ) (few : i ≤ trunc (getLength c.pulses) (w t).pulses) (short : m ≤ q + 1)
    (inside : t + 1 + (i * (q + 2) + m) ≤ e) :
    At c q (trunc (getLength c.pulses) (w t).pulses - i) m
      (run c.next s w (t + 1 + (i * (q + 2) + m))) := by
  have after := window.after
  have start := at_start (clear t) (steady t le_rfl after.le) positive window.accepted.1 idle off
  exact at_cycle clear bounded (fun u later before => steady u (by omega) before.le) positive start i m
    few short inside

theorem window_length :
    e = t + (trunc (getLength c.pulses) (w t).pulses + 1) * (q + 2) := by
  have after := window.after
  have whole : (trunc (getLength c.pulses) (w t).pulses + 1) * (q + 2) =
      trunc (getLength c.pulses) (w t).pulses * (q + 2) + q + 2 := by
    rw [Nat.succ_mul, Nat.add_assoc]
  rw [whole]
  rcases Nat.lt_trichotomy e
    (t + (trunc (getLength c.pulses) (w t).pulses * (q + 2) + q + 2)) with early | same | late
  · -- before that, either the label or the inner generator says that the burst goes on
    have shape : t + 1 + ((e - (t + 1)) / (q + 2) * (q + 2) + (e - (t + 1)) % (q + 2)) = e := by
      rw [Nat.div_add_mod']
      omega
    have bound : (e - (t + 1)) % (q + 2) < q + 2 := Nat.mod_lt _ (by omega)
    have few : (e - (t + 1)) / (q + 2) ≤ trunc (getLength c.pulses) (w t).pulses := by
      apply Nat.le_of_lt_succ
      apply Nat.div_lt_of_lt_mul
      rw [Nat.mul_comm, Nat.succ_eq_add_one, whole]
      omega
    have here := at_phase clear bounded steady positive window idle off _ _ few (by omega) shape.le
    rw [shape] at here
    obtain ⟨pulse, last⟩ := window.ending
    rw [here.inner, phase_out] at pulse
    rw [here.count] at last
    have all : (e - (t + 1)) / (q + 2) = trunc (getLength c.pulses) (w t).pulses := by omega
    rw [all] at shape
    omega
  · exact same
  · have here := at_phase clear bounded steady positive window idle off _ (q + 1) le_rfl le_rfl
      (by omega)
    have early := window.first
      (t + 1 + (trunc (getLength c.pulses) (w t).pulses * (q + 2) + (q + 1))) (by omega) (by omega)
    apply absurd _ early
    refine ⟨?_, ?_⟩
    · rw [here.inner, phase_out]
      omega
    · rw [here.count, Nat.sub_self]

theorem window_pulses :
    times (fun u => (run c.next s w u).out) (t + 1) (e + 1) =
      (List.range (trunc (getLength c.pulses) (w t).pulses + 1)).map fun k => t + 1 + k * (q + 2) := by
  have ending := window_length clear bounded steady positive window idle off
  have last : t + 1 + (trunc (getLength c.pulses) (w t).pulses + 1) * (q + 2) = e + 1 := by omega
  have first : t + 1 + 0 * (q + 2) = t + 1 := by rw [Nat.zero_mul, Nat.add_zero]
  have cycle (k m : ℕ) (few : k < trunc (getLength c.pulses) (w t).pulses + 1) (short : m ≤ q + 1) :
      (run c.next s w (t + 1 + (k * (q + 2) + m))).out = true ↔ m = 0 := by
    have bound : (k + 1) * (q + 2) ≤ (trunc (getLength c.pulses) (w t).pulses + 1) * (q + 2) :=
      Nat.mul_le_mul_right _ few
    have period : (k + 1) * (q + 2) = k * (q + 2) + q + 2 := by rw [Nat.succ_mul, Nat.add_assoc]
    exact (at_phase clear bounded steady positive window idle off k m (by omega) short (by omega)).out
  have windows := times_windows (p := fun u => (run c.next s w u).out)
    (fun k => t + 1 + k * (q + 2)) (fun k => t + 1 + k * (q + 2))
    (trunc (getLength c.pulses) (w t).pulses + 1) ?_ ?_ ?_
  · rw [first, last] at windows
    exact windows
  · intro k few
    refine ⟨le_rfl, ?_⟩
    rw [Nat.succ_mul]
    omega
  · intro k few
    exact (cycle k 0 few (by omega)).mpr rfl
  · intro k few u after before other
    rw [Nat.succ_mul] at before
    have here := cycle k (u - (t + 1 + k * (q + 2))) few (by omega)
    rw [show t + 1 + (k * (q + 2) + (u - (t + 1 + k * (q + 2)))) = u by omega] at here
    rw [Bool.eq_false_iff, Ne, here]
    omega

end Run

end Pypga.Migen.BurstSchedule
