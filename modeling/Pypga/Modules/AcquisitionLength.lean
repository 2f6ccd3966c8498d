/- GID: Pypga/Modules/AcquisitionLength
   generality: G
   digest: The number of samples of an acquisition is never the one its length register announces. -/

import Pypga.Modules.Daq

set_option autoImplicit false
set_option relaxedAutoImplicit false

namespace Pypga.Modules.AcquisitionLength

open Pypga.Foundation.ClockedMachine (run run_kept run_assigned)
open Pypga.Foundation.FixedWidth
open Pypga.Foundation.Waveform (times)
open Pypga.Migen.Operands (getLength signedMinusUnsigned)
open Pypga.Migen.PulseGenerators
open Pypga.Migen.BurstDecomposition (accepted labels)
open Pypga.Migen.BurstWindows
open Pypga.Core.Registers
open Pypga.Modules.Daq

variable {a : Arguments}

def Kept (i : Input) : Prop := ∀ value, i.assigned ≠ some (.length value)

/-- The number of out pulses, and so of stored samples, of the burst in the cycles `t < u ≤ e`. -/
def samples (r : ℕ → BurstGen) (t e : ℕ) : ℕ := (times (fun u => (r u).out) (t + 1) (e + 1)).length

def acquired (a : Arguments) (storage : ℕ) : ℕ :=
  trunc (getLength a.pulseburst.pulses) (a.length.signal storage - 1) + 1

section Bursts

variable {s : State} (created : a.create = .ok s) {w : ℕ → Input}
include created

theorem acquires {t : ℕ} (taken : accepted (a.burst s w) (fun k => (w k).trigger) (fun _ => false) t) :
    ∃ e, Window (a.burst s w) (fun k => (w k).trigger) t e := by
  rw [burst_run] at taken ⊢
  exact window_exists (fun _ => rfl) (create_idle created).1 taken

theorem window_samples {t e : ℕ} (window : Window (a.burst s w) (fun k => (w k).trigger) t e) :
    samples (a.burst s w) t e = acquired a (run a.next s w t).length := by
  rw [burst_run] at window
  have all := window_labels (fun _ => rfl) (create_idle created).1 window
  rw [← burst_run] at all
  have size := congrArg List.length all
  rw [labels, List.length_map, countdown_length] at size
  exact size

theorem accepts_idle {t : ℕ} (quiet : ∀ k < t, (w k).trigger = false) (trigger : (w t).trigger = true) :
    accepted (a.burst s w) (fun k => (w k).trigger) (fun _ => false) t := by
  refine ⟨trigger, rfl, .inl ?_⟩
  have idle : ∀ k ≤ t, (a.burst s w k).busy = false := by
    intro k
    induction k with
    | zero => exact fun _ => (create_idle created).2.1
    | succ k ih =>
      intro before
      exact next_idle (c := a.pulseburst) (ih (by omega)) (quiet k (by omega))
  exact idle t le_rfl

end Bursts

theorem kept_length {s : State} {w : ℕ → Input} {t₀ t : ℕ} (after : t₀ ≤ t)
    (kept : ∀ u, t₀ ≤ u → u < t → Kept (w u)) :
    (run a.next s w t).length = (run a.next s w t₀).length :=
  run_kept State.length (fun u later earlier => next_length_of_kept (kept u later earlier)) after le_rfl

private theorem assigned_length {s : State} {w : ℕ → Input} {t₀ t : ℕ} {value : ℚ}
    (assigned : (w t₀).assigned = some (.length value)) (after : t₀ < t)
    (kept : ∀ u, t₀ < u → u < t → Kept (w u)) :
    (run a.next s w t).length = a.length.assigned value := by
  apply run_assigned State.length _ after fun u later earlier => next_length_of_kept (kept u later earlier)
  intro s
  simp only [Arguments.next, assigned]

private theorem reading_eq (storage : ℕ) :
    a.length.toPython storage =
      if (2 : ℤ) ^ (a.samplingPeriodWidth - 1) ≤ storage + 1 then
        (storage : ℤ) + 1 - 2 ^ a.samplingPeriodWidth
      else storage + 1 := by
  simp [NumberRegister.toPython, Register.toPython, NumberRegister.readWidth, Arguments.length]

section Lengths

variable (wide : 2 ≤ a.samplingPeriodWidth)
include wide

private theorem pulses_width : getLength a.pulseburst.pulses = a.samplingPeriodWidth + 1 := by
  have width : max a.samplingPeriodWidth (1 + 1) = a.samplingPeriodWidth := by omega
  have positive : ¬ a.samplingPeriodWidth + 1 < 1 := by omega
  show (if signedMinusUnsigned a.samplingPeriodWidth 1 < 1 then 1 else _) = _
  rw [signedMinusUnsigned, width, if_neg positive]
  exact congrArg (· + 1) width

private theorem acquired_eq (storage : ℕ) (fits : storage < 2 ^ a.samplingPeriodWidth) :
    acquired a storage =
      if storage = 0 then 2 ^ (a.samplingPeriodWidth + 1)
      else if 2 ^ (a.samplingPeriodWidth - 1) ≤ storage then storage + 2 ^ a.samplingPeriodWidth
      else storage := by
  have power : 2 ^ (a.samplingPeriodWidth + 1) = 2 * 2 ^ a.samplingPeriodWidth := by
    rw [Nat.pow_succ, Nat.mul_comm]
  have positive : 0 < 2 ^ (a.samplingPeriodWidth - 1) := Nat.two_pow_pos _
  have signal : a.length.signal storage =
      if 2 ^ (a.samplingPeriodWidth - 1) ≤ storage then (storage : ℤ) - 2 ^ a.samplingPeriodWidth
      else storage := by
    simp [NumberRegister.signal, Arguments.length]
  rw [acquired, pulses_width wide, signal]
  by_cases zero : storage = 0
  · subst zero
    have small : ¬ 2 ^ (a.samplingPeriodWidth - 1) ≤ 0 := by omega
    rw [if_neg small, if_pos rfl, Nat.cast_zero, zero_sub, trunc_neg_one]
    omega
  · rw [if_neg zero]
    split
    · -- a negative signal: the count takes its two's complement
      have cast : (storage : ℤ) - 2 ^ a.samplingPeriodWidth - 1 =
          ((storage + 2 ^ a.samplingPeriodWidth - 1 : ℕ) : ℤ) -
            ((2 ^ (a.samplingPeriodWidth + 1) : ℕ) : ℤ) := by
        rw [power]
        push_cast [Nat.cast_sub (show 1 ≤ storage + 2 ^ a.samplingPeriodWidth by omega)]
        ring
      have wrapped : trunc (a.samplingPeriodWidth + 1)
          ((storage : ℤ) - 2 ^ a.samplingPeriodWidth - 1) =
            storage + 2 ^ a.samplingPeriodWidth - 1 := by
        rw [cast, trunc]
        push_cast
        rw [Int.sub_emod_right, ← trunc, trunc_of_fits (by omega)]
      rw [wrapped]
      omega
    · rw [trunc_pred (by omega) (by omega)]
      omega

private theorem half_range : 2 ^ a.samplingPeriodWidth = 2 * 2 ^ (a.samplingPeriodWidth - 1) := by
  rw [← Nat.pow_succ']
  congr 1
  omega

private theorem acquired_ne_wide (storage : ℕ) (fits : storage < 2 ^ a.samplingPeriodWidth) :
    (acquired a storage : ℤ) ≠ a.length.toPython storage := by
  have half := half_range wide
  have two : 2 ^ 1 ≤ 2 ^ (a.samplingPeriodWidth - 1) :=
    Nat.pow_le_pow_right (by decide) (by omega)
  have power : 2 ^ (a.samplingPeriodWidth + 1) = 2 * 2 ^ a.samplingPeriodWidth := by
    rw [Nat.pow_succ, Nat.mul_comm]
  have small : (2 : ℤ) ^ (a.samplingPeriodWidth - 1) = (2 ^ (a.samplingPeriodWidth - 1) : ℕ) := by
    norm_cast
  have whole : (2 : ℤ) ^ a.samplingPeriodWidth = (2 ^ a.samplingPeriodWidth : ℕ) := by norm_cast
  rw [acquired_eq wide storage fits, reading_eq, small, whole, power, half]
  rw [half] at fits
  generalize 2 ^ (a.samplingPeriodWidth - 1) = range at *
  split_ifs <;> omega

private theorem assigned_word (L : ℤ) (one : 1 ≤ L)
    (most : L ≤ 2 ^ (a.samplingPeriodWidth - 1) - 1) :
    (a.length.assigned (L : ℚ) : ℤ) = L - 1 := by
  have half := half_range wide
  have positive : (0 : ℤ) < 2 ^ (a.samplingPeriodWidth - 1) := by positivity
  have whole : (2 : ℤ) ^ a.samplingPeriodWidth = 2 * 2 ^ (a.samplingPeriodWidth - 1) := by
    exact_mod_cast half
  have before : a.length.beforeFromPython (L : ℚ) = L := by
    simp [NumberRegister.beforeFromPython, Arguments.length]
  have above : ¬ (L : ℚ) < (a.length.intMin : ℤ) := by
    rw [Int.cast_lt]
    simp only [NumberRegister.intMin, Arguments.length, if_true]
    omega
  have below : ¬ ((a.length.intMax : ℤ) : ℚ) < L := by
    rw [Int.cast_lt]
    simp only [NumberRegister.intMax, Arguments.length, if_true]
    omega
  have natural : ¬ (a.length.signed = true ∧ (L : ℚ) < 0) := by
    rintro ⟨-, negative⟩
    have : L < 0 := by exact_mod_cast negative
    omega
  have word : a.length.fromPython (L : ℚ) = L - 1 := by
    simp only [NumberRegister.fromPython, if_neg above, if_neg below, if_neg natural,
      Register.fromPython, py_int_cast]
    have offset : L + a.length.offsetFromPython = L - 1 := rfl
    have width : a.length.width = a.samplingPeriodWidth := rfl
    rw [offset, width, if_neg (by omega), if_neg (by omega)]
  obtain ⟨n, is⟩ := Int.eq_ofNat_of_zero_le (show 0 ≤ L - 1 by omega)
  have fits : n < 2 ^ a.samplingPeriodWidth := by
    have range : (n : ℤ) < 2 ^ a.samplingPeriodWidth := by omega
    exact_mod_cast range
  rw [NumberRegister.assigned, before, word, is]
  exact congrArg _ (trunc_of_fits fits)

end Lengths

private theorem acquired_ne_reading (storage : ℕ) (fits : storage < 2 ^ a.samplingPeriodWidth) :
    (acquired a storage : ℤ) ≠ a.length.toPython storage := by
  by_cases wide : 2 ≤ a.samplingPeriodWidth
  · exact acquired_ne_wide wide storage fits
  · -- a register this narrow never reads as a positive number
    have zero : a.samplingPeriodWidth - 1 = 0 := by omega
    have whole : (2 : ℤ) ^ a.samplingPeriodWidth = (2 ^ a.samplingPeriodWidth : ℕ) := by norm_cast
    rw [reading_eq, zero, pow_zero, if_pos (by omega), whole, acquired]
    omega

/-- After the assignment `length = L` every burst consists of exactly `L` samples. -/
def KeepsLength (a : Arguments) (L : ℤ) : Prop :=
  ∀ s w t₀ t e, a.create = .ok s → (w t₀).assigned = some (.length L) → t₀ < t →
    (∀ u, t₀ < u → u < t → Kept (w u)) → Window (a.burst s w) (fun k => (w k).trigger) t e →
    (samples (a.burst s w) t e : ℤ) = L

/-- At power-up the length reads as the number of samples of the first acquisition. -/
def AnnouncesLength (a : Arguments) : Prop :=
  ∀ s w t e, a.create = .ok s → (∀ u < t, Kept (w u)) →
    Window (a.burst s w) (fun k => (w k).trigger) t e →
    (samples (a.burst s w) t e : ℤ) = a.length.toPython s.length

section Assigned

variable {s : State} (created : a.create = .ok s) {L : ℤ} (one : 1 ≤ L)
variable (most : L ≤ 2 ^ (a.samplingPeriodWidth - 1) - 1)
include created one most

omit created in
private theorem wide_of_accepted : 2 ≤ a.samplingPeriodWidth := by
  by_contra narrow
  have zero : a.samplingPeriodWidth - 1 = 0 := by omega
  rw [zero] at most
  omega

private theorem assigned_samples {w : ℕ → Input} {t₀ t e : ℕ}
    (assigned : (w t₀).assigned = some (.length L)) (after : t₀ < t)
    (kept : ∀ u, t₀ < u → u < t → Kept (w u))
    (window : Window (a.burst s w) (fun k => (w k).trigger) t e) :
    (samples (a.burst s w) t e : ℤ) =
      if L = 1 then 2 ^ (a.samplingPeriodWidth + 1) else L - 1 := by
  have wide := wide_of_accepted one most
  have word := assigned_word wide L one most
  have fits : a.length.assigned (L : ℚ) < 2 ^ a.samplingPeriodWidth := trunc_lt _ _
  have small : (2 : ℤ) ^ (a.samplingPeriodWidth - 1) = (2 ^ (a.samplingPeriodWidth - 1) : ℕ) := by
    norm_cast
  rw [window_samples created window, assigned_length assigned after kept,
    acquired_eq wide _ fits]
  have low : ¬ 2 ^ (a.samplingPeriodWidth - 1) ≤ a.length.assigned (L : ℚ) := by omega
  by_cases first : L = 1
  · rw [if_pos (by omega), if_pos first]
    norm_cast
  · rw [if_neg (by omega), if_neg low, if_neg first]
    exact word

private theorem not_keeps_length : ¬ KeepsLength a L := by
  intro keeps
  obtain ⟨w, is⟩ : ∃ w : ℕ → Input, w = fun k =>
    if k = 0 then ⟨false, some (.length L)⟩ else ⟨true, none⟩ := ⟨_, rfl⟩
  have assigned : (w 0).assigned = some (.length L) := by rw [is]; rfl
  have kept : ∀ u, 0 < u → u < 1 → Kept (w u) := fun u later before => absurd before (by omega)
  have quiet : ∀ k < 1, (w k).trigger = false := by
    intro k before
    obtain rfl : k = 0 := by omega
    rw [is]
    rfl
  obtain ⟨e, window⟩ := acquires created (accepts_idle created quiet (by rw [is]; rfl))
  have same := keeps s w 0 1 e created assigned Nat.one_pos kept window
  rw [assigned_samples created one most assigned Nat.one_pos kept window] at same
  have wide : (2 : ℤ) ^ 1 ≤ 2 ^ (a.samplingPeriodWidth + 1) :=
    pow_le_pow_right₀ (by decide) (by omega)
  split at same <;> omega

end Assigned

private theorem not_announces_length {s : State} (created : a.create = .ok s) :
    ¬ AnnouncesLength a := by
  intro announces
  have quiet : ∀ k < 0, ((fun _ => ⟨true, none⟩ : ℕ → Input) k).trigger = false :=
    fun k before => absurd before (Nat.not_lt_zero k)
  obtain ⟨e, window⟩ := acquires created (accepts_idle created quiet rfl)
  have same := announces s _ 0 e created (fun u before => absurd before (Nat.not_lt_zero u)) window
  rw [window_samples created window] at same
  have bound : s.length < 2 ^ a.samplingPeriodWidth := by
    rw [(create_idle created).2.2]
    exact trunc_lt _ _
  exact acquired_ne_reading s.length bound same

/-- A length that is assigned is never the number of samples: a burst has one sample less, or
twice the range of the register for a length of one; nor is the length at power-up. -/
theorem length_never_kept (a : Arguments) (s : State) (created : a.create = .ok s) :
    (∀ L : ℤ, 1 ≤ L → L ≤ 2 ^ (a.samplingPeriodWidth - 1) - 1 →
      (∀ w t₀ t, (w t₀).assigned = some (.length L) → t₀ < t →
        (∀ u, t₀ < u → u < t → Kept (w u)) →
        accepted (a.burst s w) (fun k => (w k).trigger) (fun _ => false) t →
        ∃ e, Window (a.burst s w) (fun k => (w k).trigger) t e ∧
          (samples (a.burst s w) t e : ℤ) =
            if L = 1 then 2 ^ (a.samplingPeriodWidth + 1) else L - 1) ∧
      ¬ KeepsLength a L) ∧
    ¬ AnnouncesLength a := by
  refine ⟨?_, not_announces_length created⟩
  intro L one most
  refine ⟨?_, not_keeps_length created one most⟩
  intro w t₀ t assigned after kept taken
  obtain ⟨e, window⟩ := acquires created taken
  exact ⟨e, window, assigned_samples created one most assigned after kept window⟩

def fourBits : Arguments where
  dataDepth := 4
  dataWidth := 8
  dataDecimals := 7
  samplingPeriodWidth := 4
  defaultSamplingPeriod := 3
  dataSigned := true
  axiHpIndex := none

def fourBitsPowerUp : State := ⟨4, 1, ⟨⟨false, 0, false⟩, false, false, 0, false⟩⟩

theorem length_never_kept_four_bits :
    ¬ KeepsLength fourBits 2 ∧ ¬ AnnouncesLength fourBits :=
  have never := length_never_kept fourBits fourBitsPowerUp rfl
  ⟨(never.1 2 (by decide) (by decide)).2, never.2⟩

/-- One trigger after `length = 2` gives one sample, and one trigger at power-up gives four
samples while five are announced. -/
theorem length_two_counterexample :
    fourBits.create = .ok fourBitsPowerUp ∧
    times (fun u => (fourBits.burst fourBitsPowerUp
      (fun k => ⟨k == 1, if k = 0 then some (.length 2) else none⟩) u).out) 0 50 = [2] ∧
    times (fun u => (fourBits.burst fourBitsPowerUp (fun k => ⟨k == 0, none⟩) u).out) 0 50 =
      [1, 4, 7, 10] ∧
    fourBits.length.toPython fourBitsPowerUp.length = 5 := by
  refine ⟨rfl, ?_, ?_, ?_⟩ <;> decide +kernel

end Pypga.Modules.AcquisitionLength
