/- GID: Pypga/Migen/PulseTiming
   generality: G
   digest: The cycles in which the endless pulse generator pulses, under any waveform of its enable. -/

import Pypga.Migen.PulseGenerators

set_option autoImplicit false
set_option relaxedAutoImplicit false

namespace Pypga.Migen.PulseTiming

open Pypga.Foundation.ClockedMachine (run run_succ)
open Pypga.Foundation.FixedWidth (trunc trunc_of_fits)
open Pypga.Migen.Operands (getLength Steady)
open Pypga.Migen.PulseGenerators

/-- A generator whose period never changes, with an offset that its period admits. -/
structure Arguments where
  period : Steady
  highAfterOn : Bool
  offset : ℕ
  offset_le : offset ≤ period.value

namespace Arguments

variable (a : Arguments)

def config : PulseGenConfig := ⟨a.period.operand, a.highAfterOn, a.offset⟩

def prepared : PulseGen := ⟨false, a.period.value - a.offset, a.highAfterOn⟩

/-- The registers cycle by cycle from power-up, under a waveform of `on`. -/
def history (on : ℕ → Bool) : ℕ → PulseGen :=
  run (a.config.next a.period.value) a.prepared on

/-- `m` steps of the countdown are done; after the last of them the carry bit is set. -/
def Phase (m : ℕ) (s : PulseGen) : Prop :=
  if m ≤ a.period.value then s.count = a.period.value - m ∧ s.carry = false
  else m = a.period.value + 1 ∧ s.carry = true

def firstPhase : ℕ := if a.highAfterOn then a.period.value + 1 else a.offset

private theorem prepared_value :
    trunc (getLength a.period.operand) ((a.period.value : ℤ) - a.offset) =
      a.period.value - a.offset := by
  have fits := a.period.fits
  rw [← Nat.cast_sub a.offset_le]
  exact trunc_of_fits (by omega)

private theorem create_eq_prepared : a.config.create = .ok a.prepared := by
  have natural : ¬ (a.period.value : ℤ) < 0 := by omega
  have value := a.prepared_value
  simp [config, PulseGenConfig.create, a.period.reset, natural, PulseGenConfig.powerUp, prepared,
    value]

private theorem next_disabled (s : PulseGen) :
    a.config.next a.period.value false s = a.prepared := by
  have value := a.prepared_value
  simp [config, PulseGenConfig.next, prepared, value]

private theorem phase_prepared : a.Phase a.firstPhase a.prepared := by
  have inside := a.offset_le
  unfold Phase firstPhase prepared
  cases a.highAfterOn with
  | true => simp
  | false => simp [inside]

theorem next_enabled {m : ℕ} {s : PulseGen} (here : a.Phase m s) :
    a.Phase ((m + 1) % (a.period.value + 2)) (a.config.next a.period.value true s) ∧
      ((a.config.next a.period.value true s).out = true ↔ m = a.period.value + 1) := by
  have fits := a.period.fits
  rw [Phase] at here
  split_ifs at here with counting
  · obtain ⟨count, quiet⟩ := here
    have small : (m + 1) % (a.period.value + 2) = m + 1 := Nat.mod_eq_of_lt (by omega)
    have below : s.count < 2 ^ getLength a.period.operand := by omega
    rw [small, pulsegen_countdown a.config _ _ quiet below]
    split_ifs with last
    · refine ⟨?_, iff_of_false id (by omega)⟩
      rw [Phase, if_neg (by omega)]
      exact ⟨by omega, rfl⟩
    · refine ⟨?_, iff_of_false id (by omega)⟩
      rw [Phase, if_pos (by omega)]
      exact ⟨by dsimp only; omega, rfl⟩
  · obtain ⟨rfl, carry⟩ := here
    have value : trunc (getLength a.config.period) a.period.value = a.period.value := trunc_of_fits fits
    have next : a.config.next a.period.value true s = ⟨true, a.period.value, false⟩ := by
      simp [PulseGenConfig.next, carry, value]
    rw [next, Nat.mod_self, Phase, if_pos (Nat.zero_le _)]
    exact ⟨⟨rfl, rfl⟩, iff_of_true rfl rfl⟩

end Arguments

variable {a : Arguments} {on : ℕ → Bool}

variable (a) in
private theorem prepared_at_rise {s : ℕ} (rise : s = 0 ∨ on (s - 1) = false) :
    a.history on s = a.prepared := by
  cases s with
  | zero => rfl
  | succ s =>
    have low : on s = false := by simpa using rise
    rw [Arguments.history, run_succ, low]
    exact a.next_disabled _

variable (a) in
private theorem phase_since_rise {s : ℕ} (rise : s = 0 ∨ on (s - 1) = false) (n : ℕ)
    (high : ∀ u, s ≤ u → u < s + n → on u = true) :
    a.Phase ((a.firstPhase + n) % (a.period.value + 2)) (a.history on (s + n)) := by
  induction n with
  | zero =>
    have inside := a.offset_le
    have small : a.firstPhase < a.period.value + 2 := by
      unfold Arguments.firstPhase
      split_ifs <;> omega
    have start : a.history on (s + 0) = a.prepared := prepared_at_rise a rise
    rw [start, Nat.add_zero, Nat.mod_eq_of_lt small]
    exact a.phase_prepared
  | succ n ih =>
    have before := ih fun u after earlier => high u after (by omega)
    have now := high (s + n) (by omega) (by omega)
    have edge : a.history on (s + (n + 1)) =
        a.config.next a.period.value (on (s + n)) (a.history on (s + n)) := rfl
    have step := (a.next_enabled before).1
    rw [Nat.mod_add_mod] at step
    rw [edge, now]
    exact step

variable (a) in
private theorem out_since_rise {s : ℕ} (rise : s = 0 ∨ on (s - 1) = false) (n : ℕ)
    (high : ∀ u, s ≤ u → u < s + (n + 1) → on u = true) :
    (a.history on (s + (n + 1))).out = true ↔ a.period.value + 2 ∣ a.firstPhase + n + 1 := by
  have before := phase_since_rise a rise n fun u after earlier => high u after (by omega)
  have now := high (s + n) (by omega) (by omega)
  have edge : a.history on (s + (n + 1)) =
      a.config.next a.period.value (on (s + n)) (a.history on (s + n)) := rfl
  rw [edge, now, (a.next_enabled before).2]
  rw [Nat.dvd_iff_mod_eq_zero]
  exact Nat.succ_mod_succ_eq_zero_iff.symm

/-- A generator that starts with a pulse pulses every `period + 2` cycles from then on; one that
does not has its first pulse after the first period, which is shorter by the offset. -/
theorem pulse_schedule (a : Arguments) (on : ℕ → Bool) :
    a.config.create = .ok a.prepared ∧
    (∀ s t, (s = 0 ∨ on (s - 1) = false) → s < t → (∀ u, s ≤ u → u < t → on u = true) →
      ((a.history on t).out = true ↔
        if a.highAfterOn then a.period.value + 2 ∣ t - s - 1
        else ∃ k, t - s = (a.period.value + 2) * (k + 1) - a.offset)) ∧
    (∀ t, on t = false → (a.history on (t + 1)).out = false) := by
  refine ⟨a.create_eq_prepared, ?_, ?_⟩
  · intro s t rise after high
    obtain ⟨n, rfl⟩ : ∃ n, t = s + (n + 1) := ⟨t - s - 1, by omega⟩
    rw [out_since_rise a rise n high, Nat.add_sub_cancel_left, Nat.add_sub_cancel]
    unfold Arguments.firstPhase
    cases a.highAfterOn with
    | true =>
      have turn : a.period.value + 1 + n + 1 = n + (a.period.value + 2) := by omega
      simp only [if_true, turn]
      exact Nat.dvd_add_self_right
    | false =>
      have inside := a.offset_le
      simp only [Bool.false_eq_true, if_false]
      constructor
      · rintro ⟨k, multiple⟩
        cases k with
        | zero => omega
        | succ k => exact ⟨k, by omega⟩
      · rintro ⟨k, time⟩
        have long : a.period.value + 2 ≤ (a.period.value + 2) * (k + 1) :=
          Nat.le_mul_of_pos_right _ k.succ_pos
        exact ⟨k + 1, by omega⟩
  · intro t low
    have edge : a.history on (t + 1) = a.config.next a.period.value (on t) (a.history on t) := rfl
    rw [edge, low, a.next_disabled]
    rfl

end Pypga.Migen.PulseTiming
