/- GID: Pypga/Modules/AveragingFactor
   generality: G
   digest: The inverse factor of the average, and when the attributes of the DAQ keep it at its period. -/

import Pypga.Core.Quantisation
import Pypga.Foundation.LabelledRun
import Pypga.Modules.SamplingPeriod

set_option autoImplicit false
set_option relaxedAutoImplicit false

namespace Pypga.Modules.AveragingFactor

open Pypga.Foundation.FixedWidth
open Pypga.Foundation.LabelledRun
open Pypga.Foundation.Rounding
open Pypga.Core
open Pypga.Core.Registers
open Pypga.Core.WordEncoding
open Pypga.Core.OffsetLaw

def inverseFactorSamplingPeriodCycles (width : ℕ) (defaultSamplingPeriod : ℤ) : NumberRegister where
  width := width
  default := some (pyInt (2 ^ 16 / (defaultSamplingPeriod : ℚ)))

structure TimedDaq extends Daq.Arguments where
  clockPeriod : ℚ
  positive : 0 < clockPeriod
  least : 2 ≤ defaultSamplingPeriod
  most : defaultSamplingPeriod < 2 ^ (samplingPeriodWidth - 1)

structure Storages where
  samplingPeriodCycles : ℕ
  inverseFactorSamplingPeriodCycles : ℕ
  length : ℕ
  deriving DecidableEq

inductive Assignment
  | samplingPeriodCycles (value : ℚ)
  | samplingPeriod (value : ℚ)
  | period (value : ℚ)
  | frequency (value : ℚ)
  | length (value : ℚ)

namespace TimedDaq

variable (d : TimedDaq)

def factor : NumberRegister :=
  inverseFactorSamplingPeriodCycles d.samplingPeriodWidth d.defaultSamplingPeriod

def cyclesRead (s : Storages) : ℤ :=
  d.toArguments.samplingPeriodCycles.toPython s.samplingPeriodCycles

def factorRead (s : Storages) : ℤ := d.factor.toPython s.inverseFactorSamplingPeriodCycles

def lengthRead (s : Storages) : ℤ := d.toArguments.length.toPython s.length

def powerUp : Storages where
  samplingPeriodCycles := d.toArguments.samplingPeriodCycles.powerUp
  inverseFactorSamplingPeriodCycles := d.factor.powerUp
  length := d.toArguments.length.powerUp

/-- The setter of `sampling_period` reads the cycles back for the factor; a division by zero raises. -/
def setSamplingPeriod (samplingPeriod : ℚ) (s : Storages) : Option Storages :=
  let s := { s with samplingPeriodCycles :=
    d.toArguments.samplingPeriodCycles.assigned (samplingPeriod / d.clockPeriod) }
  if d.cyclesRead s = 0 then none
  else some { s with inverseFactorSamplingPeriodCycles :=
    d.factor.assigned (pyInt (2 ^ 16 / (d.cyclesRead s : ℚ))) }

def setPeriod (period : ℚ) (s : Storages) : Option Storages :=
  if d.lengthRead s = 0 then none else d.setSamplingPeriod (period / d.lengthRead s) s

def setFrequency (frequency : ℚ) (s : Storages) : Option Storages :=
  if frequency = 0 then none else d.setPeriod (1 / frequency) s

def step (l : Assignment) (s : Storages) : Option Storages :=
  match l with
  | .samplingPeriodCycles value =>
    some { s with samplingPeriodCycles := d.toArguments.samplingPeriodCycles.assigned value }
  | .samplingPeriod value => d.setSamplingPeriod value s
  | .period value => d.setPeriod value s
  | .frequency value => d.setFrequency value s
  | .length value => some { s with length := d.toArguments.length.assigned value }

def Follows (s : Storages) : Prop := d.factorRead s = 2 ^ 16 / d.cyclesRead s

instance (s : Storages) : Decidable (d.Follows s) :=
  inferInstanceAs (Decidable (d.factorRead s = 2 ^ 16 / d.cyclesRead s))

end TimedDaq

section Register

variable {width : ℕ}

def taken (width : ℕ) (value : ℚ) : ℤ := max 2 (min (2 ^ (width - 1) - 1) ⌊value⌋)

def greatest (width : ℕ) : ℤ := 2 ^ (width - 1) - 1

private theorem taken_range (wide : 3 ≤ width) (value : ℚ) :
    2 ≤ taken width value ∧ taken width value < 2 ^ (width - 1) := by
  have four : (2 : ℤ) ^ 2 ≤ 2 ^ (width - 1) := pow_le_pow_right₀ (by decide) (by omega)
  rw [taken]
  omega

private theorem taken_of_range {P : ℤ} (least : 2 ≤ P) (most : P < 2 ^ (width - 1)) :
    taken width P = P := by
  rw [taken, Int.floor_intCast]
  omega

private theorem from_python_congr (r : Register) {v w : ℚ} (same : pyInt v = pyInt w) :
    r.fromPython v = r.fromPython w := by
  rw [Register.fromPython, Register.fromPython, same]

private theorem ranged_floor (wide : 3 ≤ width) (default : ℤ) (value : ℚ) :
    ⌊ranged (SamplingPeriod.samplingPeriodCycles width default)
      (limits (SamplingPeriod.samplingPeriodCycles width default) value)⌋ = taken width value := by
  have limited : limits (SamplingPeriod.samplingPeriodCycles width default) value =
      max value ((2 : ℤ) : ℚ) := rfl
  have range := taken_range wide value
  have low : (SamplingPeriod.samplingPeriodCycles width default).intMin = -2 ^ (width - 1) := rfl
  have high : (SamplingPeriod.samplingPeriodCycles width default).intMax = 2 ^ (width - 1) - 1 := rfl
  rw [limited, ranged, Int.floor_mono.map_max, Int.floor_mono.map_min, Int.floor_mono.map_max,
    Int.floor_intCast, Int.floor_intCast, Int.floor_intCast, low, high]
  rw [taken] at range ⊢
  omega

private theorem word_taken (wide : 3 ≤ width) (default : ℤ) (value : ℚ) :
    (SamplingPeriod.samplingPeriodCycles width default).fromPython
        ((SamplingPeriod.samplingPeriodCycles width default).beforeFromPython value) =
      (SamplingPeriod.samplingPeriodCycles width default).toRegister.fromPython
        (taken width value : ℤ) := by
  have range := taken_range wide value
  have floor := ranged_floor wide default value
  have nonneg : 0 ≤ ranged (SamplingPeriod.samplingPeriodCycles width default)
      (limits (SamplingPeriod.samplingPeriodCycles width default) value) := by
    apply Int.floor_nonneg.mp
    omega
  rw [before_from_python_eq, number_from_python_eq, if_neg fun negative => not_le.mpr negative.2 nonneg]
  apply from_python_congr
  rw [py_int_of_nonneg nonneg, floor, py_int_cast]

private theorem cycles_assigned (wide : 3 ≤ width) (default : ℤ) (value : ℚ) :
    (SamplingPeriod.samplingPeriodCycles width default).toPython
      ((SamplingPeriod.samplingPeriodCycles width default).assigned value) = taken width value := by
  have range := taken_range wide value
  obtain ⟨P, is⟩ := Int.eq_ofNat_of_zero_le (show 0 ≤ taken width value by omega)
  have most : P < 2 ^ (width - 1) := by
    have wide := range.2
    rw [is] at wide
    exact_mod_cast wide
  have same : (SamplingPeriod.samplingPeriodCycles width default).assigned value =
      (SamplingPeriod.samplingPeriodCycles width default).assigned (P : ℚ) := by
    have cast : (P : ℚ) = ((P : ℤ) : ℚ) := (Int.cast_natCast P).symm
    rw [NumberRegister.assigned, NumberRegister.assigned, word_taken wide, cast, ← is, word_taken wide,
      taken_of_range range.1 range.2]
  obtain ⟨stored, read⟩ := SamplingPeriod.period_assigned default (show 2 ≤ P by omega) most
  rw [same, stored, read, is]

private theorem saturated_assigned {r : NumberRegister} (nonempty : 1 ≤ r.width)
    (held : r.ramOffset = none)
    (unshifted : r.offsetFromPython = 0) (unlimited : r.min = none ∧ r.max = none) (k : ℤ) :
    r.toPython (r.assigned k) = saturate r.intMin r.intMax k := by
  obtain ⟨above, below⟩ := saturate_mem (k := k) (int_min_le_max r)
  have inside : InRange r (saturate r.intMin r.intMax k) := ⟨above, below⟩
  obtain ⟨nonneg, small⟩ := complement_lt nonempty inside
  rw [NumberRegister.assigned, before_from_python_free unlimited, Quantisation.from_python_int nonempty unshifted,
    to_python_eq fun _ => read_width_of_held held, unshifted, sub_zero, trunc_of_nonneg nonneg small,
    decoded_complement nonempty inside]

private theorem factor_value {cycles : ℤ} (positive : 0 < cycles) :
    pyInt (2 ^ 16 / (cycles : ℚ)) = 2 ^ 16 / cycles ∧ 0 ≤ (2 : ℤ) ^ 16 / cycles := by
  have nonneg : (0 : ℚ) ≤ 2 ^ 16 / (cycles : ℚ) := by positivity
  obtain ⟨n, rfl⟩ := Int.eq_ofNat_of_zero_le positive.le
  have cast : (2 : ℚ) ^ 16 / ((n : ℤ) : ℚ) = ((2 ^ 16 : ℤ) : ℚ) / (n : ℚ) := by push_cast; rfl
  refine ⟨?_, Int.ediv_nonneg (by decide) positive.le⟩
  rw [py_int_of_nonneg nonneg, cast]
  exact Rat.floor_intCast_div_natCast (2 ^ 16) n

private theorem factor_assigned (nonempty : 1 ≤ width) (default : ℤ) {factor : ℤ}
    (nonneg : 0 ≤ factor) :
    (inverseFactorSamplingPeriodCycles width default).toPython
      ((inverseFactorSamplingPeriodCycles width default).assigned factor) =
        min (greatest width) factor := by
  have low : (inverseFactorSamplingPeriodCycles width default).intMin = -2 ^ (width - 1) := rfl
  have high : (inverseFactorSamplingPeriodCycles width default).intMax = 2 ^ (width - 1) - 1 := rfl
  have half : (0 : ℤ) < 2 ^ (width - 1) := by positivity
  rw [saturated_assigned nonempty rfl rfl ⟨rfl, rfl⟩, saturate, low, high, greatest]
  omega

end Register

namespace TimedDaq

variable (d : TimedDaq)

/-- The assignments that leave the factor right: the period may change by its own register only
within one factor, and the other way only to a factor that its register has; the rest raises, or
concerns the length. -/
def Keeps (l : Assignment) (s : Storages) : Prop :=
  match l with
  | .samplingPeriodCycles value =>
    2 ^ 16 / taken d.samplingPeriodWidth value = 2 ^ 16 / d.cyclesRead s
  | .samplingPeriod value =>
    2 ^ 16 / taken d.samplingPeriodWidth (value / d.clockPeriod) ≤ greatest d.samplingPeriodWidth
  | .period value =>
    d.lengthRead s = 0 ∨ 2 ^ 16 / taken d.samplingPeriodWidth (value / d.lengthRead s / d.clockPeriod) ≤
      greatest d.samplingPeriodWidth
  | .frequency value =>
    value = 0 ∨ d.lengthRead s = 0 ∨
      2 ^ 16 / taken d.samplingPeriodWidth (1 / value / d.lengthRead s / d.clockPeriod) ≤
        greatest d.samplingPeriodWidth
  | .length _ => True

private theorem wide : 3 ≤ d.samplingPeriodWidth := by
  have least := d.least
  have most := d.most
  by_contra narrow
  have two : (2 : ℤ) ^ (d.samplingPeriodWidth - 1) ≤ 2 ^ 1 := pow_le_pow_right₀ (by decide) (by omega)
  omega

variable {d} {s t : Storages}

theorem factor_signal (s : Storages) :
    d.factorRead s = d.factor.signal s.inverseFactorSamplingPeriodCycles := by
  rw [factorRead, to_python_eq fun _ => read_width_of_held rfl, signal_eq]
  exact congrArg _ (sub_zero _)

theorem set_sampling_period (value : ℚ) (s : Storages) :
    ∃ t, d.setSamplingPeriod value s = some t ∧
      d.cyclesRead t = taken d.samplingPeriodWidth (value / d.clockPeriod) ∧
      d.factorRead t = min (greatest d.samplingPeriodWidth)
        (2 ^ 16 / taken d.samplingPeriodWidth (value / d.clockPeriod)) := by
  have wide := d.wide
  have range := taken_range wide (value / d.clockPeriod)
  have cycles (f l : ℕ) : d.cyclesRead
      ⟨d.toArguments.samplingPeriodCycles.assigned (value / d.clockPeriod), f, l⟩ =
        taken d.samplingPeriodWidth (value / d.clockPeriod) := cycles_assigned wide _ _
  obtain ⟨quotient, nonneg⟩ := factor_value (show 0 < taken d.samplingPeriodWidth
    (value / d.clockPeriod) by omega)
  refine ⟨⟨d.toArguments.samplingPeriodCycles.assigned (value / d.clockPeriod),
    d.factor.assigned (2 ^ 16 / taken d.samplingPeriodWidth (value / d.clockPeriod) : ℤ), s.length⟩,
    ?_, cycles _ _, factor_assigned (by omega) _ nonneg⟩
  rw [setSamplingPeriod]
  dsimp only
  rw [cycles, if_neg (by omega), quotient]

private theorem set_follows (value : ℚ) (s : Storages) :
    ∃ t, d.setSamplingPeriod value s = some t ∧
      (d.Follows t ↔ 2 ^ 16 / taken d.samplingPeriodWidth (value / d.clockPeriod) ≤
        greatest d.samplingPeriodWidth) := by
  obtain ⟨t, set, cycles, factor⟩ := set_sampling_period (d := d) value s
  refine ⟨t, set, ?_⟩
  rw [Follows, cycles, factor]
  exact min_eq_right_iff

private theorem set_period {value : ℚ} (moved : d.setPeriod value s = some t) :
    d.lengthRead s ≠ 0 ∧ (d.Follows t ↔
      2 ^ 16 / taken d.samplingPeriodWidth (value / d.lengthRead s / d.clockPeriod) ≤
        greatest d.samplingPeriodWidth) := by
  rw [setPeriod] at moved
  split at moved
  · cases moved
  · rename_i nonzero
    obtain ⟨u, set, follows⟩ := set_follows (d := d) (value / d.lengthRead s) s
    obtain rfl : t = u := Option.some.inj (moved.symm.trans set)
    exact ⟨nonzero, follows⟩

private theorem follows_step {l : Assignment} (before : d.Follows s) (moved : d.step l s = some t) :
    d.Follows t ↔ d.Keeps l s := by
  cases l with
  | samplingPeriodCycles value =>
    obtain rfl := Option.some.inj moved
    have cycles : d.cyclesRead { s with samplingPeriodCycles :=
        d.toArguments.samplingPeriodCycles.assigned value } = taken d.samplingPeriodWidth value :=
      cycles_assigned d.wide _ _
    rw [Keeps, ← before, Follows, cycles]
    exact eq_comm
  | samplingPeriod value =>
    obtain ⟨u, set, follows⟩ := set_follows value s
    obtain rfl : t = u := Option.some.inj (moved.symm.trans set)
    exact follows
  | period value =>
    obtain ⟨nonzero, follows⟩ := set_period moved
    rw [follows, Keeps, or_iff_right nonzero]
  | frequency value =>
    have moved : (if value = 0 then none else d.setPeriod (1 / value) s) = some t := moved
    split at moved
    · cases moved
    · rename_i running
      obtain ⟨nonzero, follows⟩ := set_period moved
      rw [follows, Keeps, or_iff_right running, or_iff_right nonzero]
  | length value =>
    obtain rfl := Option.some.inj moved
    exact iff_of_true before trivial

private theorem keeps_of_raised {l : Assignment} (raised : d.step l s = none) : d.Keeps l s := by
  have period_raised {value : ℚ} (raised : d.setPeriod value s = none) : d.lengthRead s = 0 := by
    rw [setPeriod] at raised
    split at raised
    · assumption
    · obtain ⟨u, set, -⟩ := set_follows (d := d) (value / d.lengthRead s) s
      rw [set] at raised
      cases raised
  cases l with
  | samplingPeriodCycles value => cases raised
  | samplingPeriod value =>
    obtain ⟨u, set, -⟩ := set_follows (d := d) value s
    cases raised.symm.trans set
  | period value => exact .inl (period_raised raised)
  | frequency value =>
    have raised : (if value = 0 then none else d.setPeriod (1 / value) s) = none := raised
    split at raised
    · rename_i zero
      exact .inl zero
    · exact .inr (.inl (period_raised raised))
  | length value => cases raised

private theorem cycles_power_up (d : TimedDaq) :
    d.cyclesRead d.powerUp = d.defaultSamplingPeriod := by
  have least := d.least
  have most := d.most
  obtain ⟨D, is⟩ := Int.eq_ofNat_of_zero_le (show 0 ≤ d.defaultSamplingPeriod by omega)
  have short : D < 2 ^ (d.samplingPeriodWidth - 1) := by
    rw [is] at most
    exact_mod_cast most
  have half : 2 ^ (d.samplingPeriodWidth - 1) ≤ 2 ^ d.samplingPeriodWidth :=
    Nat.pow_le_pow_right (by decide) (Nat.sub_le _ 1)
  have storage : d.powerUp.samplingPeriodCycles = D - 2 := by
    have cast : d.defaultSamplingPeriod - 2 = ((D - 2 : ℕ) : ℤ) := by omega
    show trunc d.samplingPeriodWidth (d.defaultSamplingPeriod - 2) = _
    rw [cast, trunc_of_fits (by omega)]
  rw [cyclesRead, storage, is]
  exact (SamplingPeriod.period_assigned _ (show 2 ≤ D by omega) short).2

private theorem follows_power_up :
    d.Follows d.powerUp ↔ 2 ^ 16 / d.defaultSamplingPeriod ≤ greatest d.samplingPeriodWidth := by
  have least := d.least
  have most := d.most
  have wide := d.wide
  have cycles := cycles_power_up d
  obtain ⟨quotient, nonneg⟩ := factor_value (show 0 < d.defaultSamplingPeriod by omega)
  have storage : d.powerUp.inverseFactorSamplingPeriodCycles =
      trunc d.samplingPeriodWidth (2 ^ 16 / d.defaultSamplingPeriod) := by
    rw [← quotient]
    rfl
  have read : d.factorRead d.powerUp =
      decoded d.factor (trunc d.samplingPeriodWidth (2 ^ 16 / d.defaultSamplingPeriod)) := by
    rw [factorRead, to_python_eq fun _ => read_width_of_held rfl, storage]
    exact congrArg _ (sub_zero _)
  have fits : trunc d.samplingPeriodWidth (2 ^ 16 / d.defaultSamplingPeriod) < 2 ^ d.factor.width :=
    trunc_lt _ _
  have inside := Quantisation.decoded_range (r := d.factor) (show 1 ≤ d.samplingPeriodWidth by omega) fits
  have high : d.factor.intMax = greatest d.samplingPeriodWidth := rfl
  rw [Follows, cycles]
  constructor
  · intro follows
    rw [← follows, read, ← high]
    exact inside.below
  · intro within
    have half : 2 ^ (d.samplingPeriodWidth - 1) ≤ 2 ^ d.samplingPeriodWidth :=
      Nat.pow_le_pow_right (by decide) (Nat.sub_le _ 1)
    have whole : (2 : ℤ) ^ (d.samplingPeriodWidth - 1) ≤ 2 ^ d.samplingPeriodWidth := by
      exact_mod_cast half
    rw [greatest] at within
    rw [read, trunc_of_nonneg nonneg (by omega), decoded]
    refine if_neg fun large => ?_
    have above : (2 : ℤ) ^ (d.samplingPeriodWidth - 1) ≤ 2 ^ 16 / d.defaultSamplingPeriod := large.2
    omega

end TimedDaq

/-- After every assignment of a sequence the factor is that of the period in use exactly if the
register has that of the default period, and every assignment keeps it. -/
theorem averaging_factor_iff (d : TimedDaq) (ls : List Assignment) :
    (∀ past more s, ls = past ++ more → run d.step past d.powerUp = some s → d.Follows s) ↔
      2 ^ 16 / d.defaultSamplingPeriod ≤ greatest d.samplingPeriodWidth ∧
        Along d.step d.Keeps ls d.powerUp := by
  rw [← TimedDaq.follows_power_up]
  exact reached_iff_along d.Follows (fun _ _ _ before moved => TimedDaq.follows_step before moved)
    fun _ _ _ raised => TimedDaq.keeps_of_raised raised

def standard : TimedDaq where
  dataDepth := 1024
  dataWidth := 14
  dataDecimals := 0
  samplingPeriodWidth := 32
  defaultSamplingPeriod := 10
  dataSigned := false
  axiHpIndex := none
  clockPeriod := 1 / 125000000
  positive := by norm_num
  least := by decide
  most := by decide

/-- After the assignment of a hundred cycles the factor is still that of ten. -/
theorem averaging_factor_counterexample :
    ∃ s, run standard.step [.samplingPeriodCycles 100] standard.powerUp = some s ∧
      standard.cyclesRead s = 100 ∧ standard.factorRead s = 6553 ∧ ¬ standard.Follows s := by
  exact ⟨_, rfl, by decide +kernel, by decide +kernel, by decide +kernel⟩

end Pypga.Modules.AveragingFactor
