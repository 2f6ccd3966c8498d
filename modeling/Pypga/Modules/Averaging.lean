/- GID: Pypga/Modules/Averaging
   generality: G
   digest: The average of a time bin, and the periods for which it is at most one away from the mean. -/

import Pypga.Foundation.Reciprocal
import Pypga.Modules.AveragingFactor
import Pypga.Modules.BinContents

set_option autoImplicit false
set_option relaxedAutoImplicit false

namespace Pypga.Modules.Averaging

open Pypga.Foundation.Accumulation
open Pypga.Foundation.Reciprocal
open Pypga.Migen.PulseGenerators (BurstGen)
open Pypga.Modules.SampleReduction
open Pypga.Modules.BinContents
open Pypga.Modules.AveragingFactor
open Pypga.Modules.TimeOrder (once)

section Range

def leastNumber (signed : Bool) (n : ℕ) : ℤ := if signed then -(2 ^ n / 2) else 0

def greatestNumber (signed : Bool) (n : ℕ) : ℤ := if signed then (2 ^ n - 1) / 2 else 2 ^ n - 1

variable {signed : Bool} {n : ℕ} {x : ℤ}

private theorem fits_iff :
    Fits signed n x ↔ leastNumber signed n ≤ x ∧ x ≤ greatestNumber signed n := by
  cases signed with
  | true =>
    rw [Fits, leastNumber, greatestNumber, if_pos rfl, if_pos rfl, if_pos rfl]
    omega
  | false =>
    rw [Fits, leastNumber, greatestNumber, if_neg Bool.false_ne_true, if_neg Bool.false_ne_true,
      if_neg Bool.false_ne_true]
    omega

private theorem range_zero (signed : Bool) (n : ℕ) :
    leastNumber signed n ≤ 0 ∧ 0 ≤ greatestNumber signed n := by
  have positive : (0 : ℤ) < 2 ^ n := by positivity
  apply fits_iff.mp
  cases signed with
  | true => exact ⟨by omega, by omega⟩
  | false => exact ⟨le_rfl, positive⟩

private theorem total_range {f : ℕ → ℤ} (m u : ℕ) (each : ∀ k, Fits signed n (f k)) :
    m * leastNumber signed n ≤ total f u (u + m) ∧ total f u (u + m) ≤ m * greatestNumber signed n := by
  have least := le_total (u := u) (v := u + m) fun k _ _ => (fits_iff.mp (each k)).1
  have most := total_le (u := u) (v := u + m) fun k _ _ => (fits_iff.mp (each k)).2
  rw [Nat.add_sub_cancel_left] at least most
  exact ⟨least, most⟩

end Range

variable {width bits : ℕ} {signed : Bool} {r : ℕ → BurstGen} {p P : ℕ}

/-- The average of a bin of `P` inputs is at most one least significant bit away from their mean; the
register has it two cycles after the bin. -/
def Accurate (signed : Bool) (bits : ℕ) (r : ℕ → BurstGen) (i : ℕ → Signals width) (p P : ℕ) : Prop :=
  |(number signed (reduction signed bits r i (p + P + 2)).averageValue : ℚ) -
    (total (fun k => number signed (i k).input) p (p + P) : ℚ) / (P : ℚ)| ≤ 1

section Average

variable {i : ℕ → Signals width} {f : ℤ} (bin : Bin r p (p + P)) (short : P ≤ 2 ^ bits)
  (constant : ∀ k, (i k).inverseFactorSamplingPeriodCycles = f)

private theorem near_iff_distance (positive : 0 < P) (S A : ℤ) :
    |(A : ℚ) - (S : ℚ) / (P : ℚ)| ≤ 1 ↔ Near P S A := by
  have divisor : (0 : ℚ) < P := by exact_mod_cast positive
  have scaled : (A : ℚ) - (S : ℚ) / (P : ℚ) = ((P * A - S : ℤ) : ℚ) / P := by
    push_cast
    rw [sub_div, mul_div_cancel_left₀ _ divisor.ne']
  have whole : |((P * A - S : ℤ) : ℚ)| ≤ P ↔ |P * A - S| ≤ P := by exact_mod_cast Iff.rfl
  rw [scaled, abs_div, abs_of_pos divisor, div_le_one divisor, whole, abs_le, Near]
  omega

include bin short constant

theorem average_value : (reduction signed bits r i (p + P + 2)).averageValue =
    BitVec.ofInt width (total (fun k => number signed (i k).input) p (p + P) * f / 2 ^ 16) := by
  have kept : (reduction signed bits r i (p + P + 1)).oldsum =
      (reduction signed bits r i (p + P)).sumvalue := by
    rw [reduction_succ]
    rfl
  have taken : (reduction signed bits r i (p + P + 2)).averageValue =
      (reduction signed bits r i (p + P + 1)).average signed (i (p + P + 1)) := by
    rw [reduction_succ]
    rfl
  rw [taken, Reduction.average, kept, sum_exact bin (by omega), constant]
  congr 1
  exact Int.shiftRight_eq_div_pow _ 16

private theorem average_exact (inverse : Inverse (2 ^ 16) P f) :
    number signed (reduction signed bits r i (p + P + 2)).averageValue =
      total (fun k => number signed (i k).input) p (p + P) * f / 2 ^ 16 := by
  obtain ⟨below, above⟩ := range_zero signed width
  obtain ⟨least, most⟩ := total_range P p fun k => number_fits (i k).input
  rw [average_value bin short constant]
  exact number_of_int (fits_iff.mpr (product_range inverse least most below above))

private theorem accurate_iff (inverse : Inverse (2 ^ 16) P f) :
    Accurate signed bits r i p P ↔ Near P (total (fun k => number signed (i k).input) p (p + P))
      (total (fun k => number signed (i k).input) p (p + P) * f / 2 ^ 16) := by
  have positive : 0 < P := by exact_mod_cast inverse.divisor
  rw [Accurate, average_exact bin short constant inverse, near_iff_distance positive]

end Average

private theorem accurate_iff_near (bin : Bin r p (p + P)) (short : P ≤ 2 ^ bits) {f : ℤ}
    (inverse : Inverse (2 ^ 16) P f) :
    (∀ i : ℕ → Signals width, (∀ k, (i k).inverseFactorSamplingPeriodCycles = f) →
        Accurate signed bits r i p P) ↔
      ∀ S : ℤ, P * leastNumber signed width ≤ S → S ≤ P * greatestNumber signed width →
        Near P S (S * f / 2 ^ 16) := by
  obtain ⟨below, above⟩ := range_zero signed width
  constructor
  · intro accurate S least most
    obtain ⟨g, each, sum⟩ := exists_total (u := p) P least most (below.trans above)
    -- the inputs are that waveform
    let i : ℕ → Signals width := fun k => ⟨BitVec.ofInt width (g k), f, 0, 0, 0⟩
    have inputs : (fun k => number signed (i k).input) = g := by
      ext k
      exact number_of_int (fits_iff.mpr (each k))
    have close := (accurate_iff (i := i) bin short (fun _ => rfl) inverse).mp (accurate i fun _ => rfl)
    rwa [inputs, sum] at close
  · intro near i constant
    obtain ⟨least, most⟩ := total_range P p fun k => number_fits (i k).input
    exact (accurate_iff bin short constant inverse).mpr (near _ least most)

/-- The inverse factor that the setter leaves for a period of `P` cycles. -/
def inverse (width : ℕ) (P : ℤ) : ℤ := min (AveragingFactor.greatest width) (2 ^ 16 / P)

private theorem inverse_of_period (w : ℕ) (positive : 0 < P) :
    Inverse (2 ^ 16) P (inverse w P) := by
  have divisor : (0 : ℤ) < P := by exact_mod_cast positive
  have range : (0 : ℤ) < 2 ^ (w - 1) := by positivity
  have quotient : 0 ≤ (2 : ℤ) ^ 16 / P := Int.ediv_nonneg (by decide) divisor.le
  refine ⟨by decide, divisor, le_min (by rw [greatest]; omega) quotient, ?_⟩
  calc inverse w P * P ≤ 2 ^ 16 / P * P := mul_le_mul_of_nonneg_right (min_le_right _ _) divisor.le
    _ ≤ 2 ^ 16 := Int.ediv_mul_le _ divisor.ne'

/-- The setter leaves a period of `P` cycles, and an inverse factor with which the averages of all bins
of `P` inputs are accurate exactly if the remainders of the inverse do not add up to too much over the
range of the inputs. -/
theorem averaging_iff (d : TimedDaq) (bits : ℕ) (samplingPeriod : ℚ) (s : Storages)
    (cycles : taken d.samplingPeriodWidth (samplingPeriod / d.clockPeriod) = P) (short : P ≤ 2 ^ bits)
    (bin : Bin r p (p + P)) :
    ∃ t, d.setSamplingPeriod samplingPeriod s = some t ∧ d.cyclesRead t = P ∧
      ((∀ i : ℕ → Signals d.dataWidth, (∀ k, (i k).inverseFactorSamplingPeriodCycles =
            d.factor.signal t.inverseFactorSamplingPeriodCycles) →
          Accurate d.dataSigned bits r i p P) ↔
        (greatestNumber d.dataSigned d.dataWidth - 1) *
            remainder (2 ^ 16) P (inverse d.samplingPeriodWidth P) ≤ inverse d.samplingPeriodWidth P ∧
          (-leastNumber d.dataSigned d.dataWidth - 1) *
            remainder (2 ^ 16) P (inverse d.samplingPeriodWidth P) <
              inverse d.samplingPeriodWidth P + 2 ^ 16) := by
  obtain ⟨t, set, read, factor⟩ := AveragingFactor.TimedDaq.set_sampling_period (d := d) samplingPeriod s
  rw [cycles] at read factor
  obtain ⟨below, above⟩ := range_zero d.dataSigned d.dataWidth
  have positive : 0 < P := by
    have later := bin.later
    omega
  have some_inverse := inverse_of_period d.samplingPeriodWidth positive
  have signal : d.factor.signal t.inverseFactorSamplingPeriodCycles = inverse d.samplingPeriodWidth P := by
    rw [← AveragingFactor.TimedDaq.factor_signal]
    exact factor
  refine ⟨t, set, read, ?_⟩
  rw [signal, accurate_iff_near bin short some_inverse]
  exact near_iff some_inverse below above

def triggered (d : TimedDaq) (t : Storages) : ℕ → BurstGen :=
  d.toArguments.burst ⟨t.length, t.samplingPeriodCycles, ⟨⟨false, 0, false⟩, false, false, 0, false⟩⟩ once

private theorem triggered_bin :
    Bin (triggered standard ⟨1, 21845, 1024⟩) 1 4 ∧ Bin (triggered standard ⟨8, 6553, 1024⟩) 1 11 :=
  ⟨bin_of_checked rfl (by decide) (by decide +kernel), bin_of_checked rfl (by decide) (by decide +kernel)⟩

theorem averaging_three :
    ∃ t, standard.setSamplingPeriod (3 / 125000000) standard.powerUp = some t ∧
      ∀ i : ℕ → Signals 14, (∀ k, (i k).inverseFactorSamplingPeriodCycles =
          standard.factor.signal t.inverseFactorSamplingPeriodCycles) →
        Accurate false 20 (triggered standard ⟨1, 21845, 1024⟩) i 1 3 := by
  obtain ⟨t, set, -, accurate⟩ := averaging_iff standard 20 (3 / 125000000) standard.powerUp (P := 3)
    (by decide +kernel) (by decide) triggered_bin.1
  exact ⟨t, set, accurate.mpr (by decide)⟩

/-- With ten cycles the average of the greatest number is too small by two. -/
theorem averaging_counterexample :
    standard.setSamplingPeriod (10 / 125000000) standard.powerUp = some ⟨8, 6553, 1024⟩ ∧
      Bin (triggered standard ⟨8, 6553, 1024⟩) 1 11 ∧
      ¬ Accurate false 20 (triggered standard ⟨8, 6553, 1024⟩)
        (fun _ => (⟨16383, standard.factor.signal 6553, 0, 0, 0⟩ : Signals 14)) 1 10 := by
  refine ⟨by decide +kernel, triggered_bin.2, ?_⟩
  have average : number false (reduction false 20 (triggered standard ⟨8, 6553, 1024⟩)
      (fun _ => (⟨16383, standard.factor.signal 6553, 0, 0, 0⟩ : Signals 14)) 13).averageValue = 16381 := by
    decide +kernel
  have sum : total (fun _ => number false (16383 : BitVec 14)) 1 11 = 163830 := by decide +kernel
  rw [Accurate, average, sum]
  norm_num [abs_le]

end Pypga.Modules.Averaging
