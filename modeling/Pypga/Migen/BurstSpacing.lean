/- GID: Pypga/Migen/BurstSpacing
   generality: G
   digest: Pulses of one burst are evenly spaced exactly when no burst starts in the cycle after another. -/

import Pypga.Migen.PulseBursts

set_option autoImplicit false
set_option relaxedAutoImplicit false

namespace Pypga.Migen.BurstSpacing

open Pypga.Migen.Operands (Steady)
open Pypga.Migen.PulseGenerators
open Pypga.Migen.PulseBursts

def Consecutive (r : ℕ → BurstGen) (t u : ℕ) : Prop :=
  t < u ∧ (r t).out = true ∧ (r u).out = true ∧ ∀ v < u, t < v → (r v).out = false

instance (r : ℕ → BurstGen) (t u : ℕ) : Decidable (Consecutive r t u) :=
  inferInstanceAs (Decidable (_ ∧ _ ∧ _ ∧ _))

/-- Consecutive pulses of one burst, labelled `c + 1` and `c`, are `period + 2` cycles apart. -/
def EvenlySpaced (period : ℕ) (r : ℕ → BurstGen) : Prop :=
  ∀ t u, Consecutive r t u → (r t).count = (r u).count + 1 → u = t + (period + 2)

/-- A trigger in the first cycle after a burst, before the inner generator is disabled. -/
def LateTrigger (r : ℕ → BurstGen) (trigger : ℕ → Bool) (t : ℕ) : Prop :=
  (r t).busy = true ∧ (r (t + 1)).busy = false ∧ trigger (t + 1) = true

section Runs

variable {period pulses : Steady} (positive : 1 ≤ period.value) (trigger : ℕ → Bool)

private theorem enabled_idle_follows_busy (k : ℕ)
    (idle : (history period pulses trigger (fun _ => false) k).busy = false)
    (on : (history period pulses trigger (fun _ => false) k).pulsegenOn = true) :
    ∃ j, k = j + 1 ∧ (history period pulses trigger (fun _ => false) j).busy = true := by
  cases k with
  | zero => cases on
  | succ j =>
    refine ⟨j, rfl, ?_⟩
    have next := history_succ period pulses trigger (fun _ => false) j
    cases before : (history period pulses trigger (fun _ => false) j).busy with
    | true => rfl
    | false =>
      cases high : trigger j with
      | false =>
        rw [next, high, edge_idle before] at on
        cases on
      | true =>
        rw [next, high, edge_start before] at idle
        cases idle

include positive

variable (pulses) in
private theorem next_pulse (t : ℕ)
    (pulse : (history period pulses trigger (fun _ => false) t).out = true)
    (left : 0 < (history period pulses trigger (fun _ => false) t).count) :
    ∃ m, m = t + wait (history period pulses trigger (fun _ => false) t).pulsegen ∧
      Consecutive (history period pulses trigger fun _ => false) t (m + 1) ∧
      (history period pulses trigger (fun _ => false) (m + 1)).count + 1 =
        (history period pulses trigger (fun _ => false) t).count := by
  have sound := sound_history pulses positive trigger (fun _ => false) t
  obtain ⟨m, stretch, ending⟩ := stretch_exists pulses positive trigger
    (fun _ => false) t (sound.pulse_busy pulse)
  obtain ⟨up, count⟩ := stretch.busy m stretch.le le_rfl
  rcases ending with stop | ⟨-, inner, at_wait⟩
  · cases stop
  · have bound := (sound_history pulses positive trigger (fun _ => false) m).count_le
    have next := history_succ period pulses trigger (fun _ => false) m
    rw [edge_tick _ up inner (by omega) bound] at next
    have le := stretch.le
    refine ⟨m, at_wait, ⟨by omega, pulse, by rw [next], ?_⟩, ?_⟩
    · intro v before after
      exact stretch.quiet v after (by omega)
    · rw [next]
      dsimp only
      omega

variable (pulses) in
private theorem pulse_wait (t : ℕ)
    (pulse : (history period pulses trigger (fun _ => false) t).out = true)
    (prompt : ∀ j, ¬ LateTrigger (history period pulses trigger fun _ => false) trigger j) :
    wait (history period pulses trigger (fun _ => false) t).pulsegen = period.value + 1 := by
  cases t with
  | zero => cases pulse
  | succ k =>
    have sound := sound_history pulses positive trigger (fun _ => false) k
    have next := history_succ period pulses trigger (fun _ => false) k
    cases busy : (history period pulses trigger (fun _ => false) k).busy with
    | true =>
      cases inner : (history period pulses trigger (fun _ => false) k).pulsegen.out with
      | false =>
        rw [next, edge_hold _ busy inner] at pulse
        cases pulse
      | true =>
        by_cases last : (history period pulses trigger (fun _ => false) k).count = 0
        · rw [next, edge_last _ busy inner last]
          exact wait_after_pulse positive sound busy inner
        · rw [next, edge_tick _ busy inner (by omega) sound.count_le]
          exact wait_after_pulse positive sound busy inner
    | false =>
      cases high : trigger k with
      | false =>
        rw [next, high, edge_idle busy] at pulse
        cases pulse
      | true =>
        cases on : (history period pulses trigger (fun _ => false) k).pulsegenOn with
        | false =>
          rw [next, high, edge_start busy]
          exact (wait_start positive sound busy).trans (by simp [on])
        | true =>
          obtain ⟨j, rfl, before⟩ := enabled_idle_follows_busy trigger k busy on
          exact absurd ⟨before, busy, high⟩ (prompt j)

private theorem late_trigger_short (some : 1 ≤ pulses.value) (t : ℕ)
    (late : LateTrigger (history period pulses trigger fun _ => false) trigger t) :
    ¬ EvenlySpaced period.value (history period pulses trigger fun _ => false) := by
  obtain ⟨busy, idle, high⟩ := late
  have sound := sound_history pulses positive trigger (fun _ => false) (t + 1)
  have on : (history period pulses trigger (fun _ => false) (t + 1)).pulsegenOn = true := by
    have before := sound_history pulses positive trigger (fun _ => false) t
    rw [history_succ]
    cases inner : (history period pulses trigger (fun _ => false) t).pulsegen.out with
    | false => rw [edge_hold _ busy inner]
    | true =>
      by_cases last : (history period pulses trigger (fun _ => false) t).count = 0
      · rw [edge_last _ busy inner last]
      · rw [edge_tick _ busy inner (by omega) before.count_le]
  have next := history_succ period pulses trigger (fun _ => false) (t + 1)
  rw [high, edge_start idle] at next
  obtain ⟨m, at_wait, pair, label⟩ := next_pulse pulses positive trigger (t + 1 + 1)
    (by rw [next]) (by rw [next]; exact some)
  have early : wait (history period pulses trigger (fun _ => false) (t + 1 + 1)).pulsegen =
      period.value := by
    rw [next]
    exact (wait_start positive sound idle).trans (by simp [on])
  intro even
  have spacing := even _ _ pair label.symm
  omega

end Runs

/-- Without resets, the pulses inside every burst are `period + 2` cycles apart exactly when
no trigger comes in the first cycle after a burst. -/
theorem evenly_spaced_iff (period pulses : Steady) (positive : 1 ≤ period.value)
    (some : 1 ≤ pulses.value) (trigger : ℕ → Bool) :
    EvenlySpaced period.value (history period pulses trigger fun _ => false) ↔
      ∀ t, ¬ LateTrigger (history period pulses trigger fun _ => false) trigger t := by
  constructor
  · intro even t late
    exact late_trigger_short positive trigger some t late even
  · intro prompt t u pair label
    have steady := pulse_wait pulses positive trigger t pair.2.1 prompt
    obtain ⟨m, at_wait, first, -⟩ := next_pulse pulses positive trigger t
      pair.2.1 (by omega)
    have same : u = m + 1 := by
      rcases Nat.lt_trichotomy u (m + 1) with before | same | after
      · have low := first.2.2.2 u before pair.1
        rw [pair.2.2.1] at low
        cases low
      · exact same
      · have low := pair.2.2.2 (m + 1) after first.1
        rw [first.2.2.1] at low
        cases low
    omega

theorem evenly_spaced_continuous :
    EvenlySpaced 3 (history (Steady.ofNat 3) (Steady.ofNat 5) (fun _ => true) fun _ => false) ↔
      ∀ t, ¬ LateTrigger (history (Steady.ofNat 3) (Steady.ofNat 5) (fun _ => true) fun _ => false)
        (fun _ => true) t :=
  evenly_spaced_iff (Steady.ofNat 3) (Steady.ofNat 5) (by decide) (by decide) fun _ => true

/-- A second trigger in the cycle in which busy has just fallen: the burst it starts pulses in
cycles 8 and 10, although the period asks for three cycles. -/
theorem late_trigger_counterexample :
    ¬ ∀ (period pulses : Steady), 1 ≤ period.value → 1 ≤ pulses.value → ∀ trigger : ℕ → Bool,
      EvenlySpaced period.value (history period pulses trigger fun _ => false) := by
  intro even
  have spacing := even (Steady.ofNat 1) (Steady.ofNat 1) (by decide) (by decide)
    (fun k => k == 0 || k == 7) 8 10 (by decide) (by decide)
  have different : (10 : ℕ) ≠ 8 + ((Steady.ofNat 1).value + 2) := by decide
  exact different spacing

end Pypga.Migen.BurstSpacing
