/- GID: Pypga/Modules/TimeBins
   generality: G
   digest: The stored extrema are those of the time bins only if the bins agree with their neighbours. -/

import Pypga.Migen.BurstSchedule
import Pypga.Modules.SampleReduction
import Pypga.Modules.TimeOrder

set_option autoImplicit false
set_option relaxedAutoImplicit false

namespace Pypga.Modules.TimeBins

open Pypga.Foundation.ClockedMachine (run run_invariant)
open Pypga.Foundation.FixedWidth
open Pypga.Foundation.LittleEndian (Word)
open Pypga.Foundation.PeakHold
open Pypga.Foundation.Waveform (times)
open Pypga.Migen.Operands (getLength)
open Pypga.Migen.BurstSchedule
open Pypga.Migen.BurstWindows
open Pypga.Core.MemoryRegister
open Pypga.Modules.Daq
open Pypga.Modules.AcquisitionLength (acquired window_samples)
open Pypga.Modules.Recording
open Pypga.Modules.SampleReduction
open Pypga.Modules.TimeOrder

/-- The values are the extrema of the input over adjacent intervals of `period` cycles, all of them
in the cycles `lo ≤ u < hi`. -/
def Binned (least : Bool) (input : ℕ → ℤ) (period lo hi : ℕ) (stored : List ℤ) : Prop :=
  ∃ b, lo ≤ b ∧ b + stored.length * period ≤ hi ∧ ∀ k x, stored[k]? = some x →
    Extremum least (seen input (b + k * period) (b + (k + 1) * period)) x

/-- In the `n` intervals of `period` cycles from the cycle `first` on, the first one has the
extremum that was in the register before, and every later one has that of the one before it,
its last cycle apart. -/
structure Aligned (least : Bool) (input : ℕ → ℤ) (period first n : ℕ) (stale : ℤ) : Prop where
  stale : Extremum least (seen input first (first + period)) stale
  bins : ∀ k, k + 1 < n → ∀ x,
    Extremum least (seen input (first + k * period) (first + (k + 1) * period - 1)) x →
      Extremum least (seen input (first + (k + 1) * period) (first + (k + 2) * period)) x

/-- Values that are one bin late, and one cycle early. -/
structure Late (least : Bool) (input : ℕ → ℤ) (period first : ℕ) (stale : ℤ) (stored : List ℤ) :
    Prop where
  head : stored[0]? = some stale
  tail : ∀ k x, stored[k + 1]? = some x →
    Extremum least (seen input (first + k * period) (first + (k + 1) * period - 1)) x

private theorem late_bins_iff {least : Bool} {input : ℕ → ℤ} {period first : ℕ} {stale : ℤ}
    {stored : List ℤ}
    (late : Late least input period first stale stored) :
    Binned least input period first (first + stored.length * period) stored ↔
      Aligned least input period first stored.length stale := by
  constructor
  · rintro ⟨b, low, high, each⟩
    obtain rfl : b = first := by omega
    refine ⟨?_, ?_⟩
    · have here := each 0 stale late.head
      rw [Nat.zero_mul, Nat.add_zero, Nat.zero_add, Nat.one_mul] at here
      exact here
    · intro k few x best
      have stored_here := List.getElem?_eq_getElem few
      have same := extremum_unique best (late.tail k _ stored_here)
      rw [same]
      exact each (k + 1) _ stored_here
  · intro aligned
    refine ⟨first, le_rfl, le_rfl, ?_⟩
    intro k x stored_here
    cases k with
    | zero =>
      rw [late.head] at stored_here
      rw [← Option.some.inj stored_here, Nat.zero_mul, Nat.add_zero, Nat.zero_add, Nat.one_mul]
      exact aligned.stale
    | succ k =>
      obtain ⟨few, -⟩ := List.getElem?_eq_some_iff.mp stored_here
      exact aligned.bins k few x (late.tail k x stored_here)

theorem aligned_const (least : Bool) (x : ℤ) {period : ℕ} (long : 2 ≤ period) (first n : ℕ) :
    Aligned least (fun _ => x) period first n x := by
  refine ⟨?_, ?_⟩
  · rw [seen_const x (by omega)]
    exact extremum_single
  · intro k _ y best
    have next : (k + 1) * period = k * period + period := Nat.succ_mul k period
    have later : (k + 2) * period = (k + 1) * period + period := Nat.succ_mul (k + 1) period
    rw [seen_const x (by omega)] at best ⊢
    exact best

variable {a : Arguments}

section Periods

private theorem period_lt {s : State} (created : a.create = .ok s) (w : ℕ → Input) (k : ℕ) :
    (run a.next s w k).samplingPeriodCycles < 2 ^ a.samplingPeriodWidth := by
  refine run_invariant (fun (_ : ℕ) (s : State) => s.samplingPeriodCycles < 2 ^ a.samplingPeriodWidth)
    ?_ ?_ k
  · rw [(create_registers created).2.2]
    exact trunc_lt _ _
  · intro n s before
    simp only [Arguments.next]
    split
    · exact trunc_lt _ _
    · exact before

private theorem period_value {storage : ℕ} (fits : storage < 2 ^ a.samplingPeriodWidth)
    (positive : 1 ≤ storage) :
    trunc (getLength a.pulseburst.period) (a.samplingPeriodCycles.signal storage) = storage :=
  a.samplingPeriodCycles.signal_value _ fits positive

end Periods

section Bursts

variable {s : State} (created : a.create = .ok s) {w : ℕ → Input} {t e : ℕ}
variable (window : Window (a.burst s w) (fun k => (w k).trigger) t e)
variable (idle : (a.burst s w t).busy = false)
variable (rested : t = 0 ∨ (a.burst s w (t - 1)).busy = false)

include created idle rested in
private theorem rested_off : (a.burst s w t).pulsegenOn = false := by
  have off := (create_off created).2.2
  rw [burst_run] at idle rested ⊢
  exact off_of_rested (fun _ => rfl) off idle rested

variable {P : ℕ} (slow : 3 ≤ P)
variable (steady : ∀ u, t ≤ u → u ≤ e → (run a.next s w u).samplingPeriodCycles + 2 = P)
include created window idle rested slow steady

/-- A burst from rest lasts one period for every sample, and each period begins with its pulse. -/
theorem burst_cycles :
    e = t + acquired a (run a.next s w t).length * P ∧
      times (fun u => (a.burst s w u).out) (t + 1) (e + 1) =
        (List.range (acquired a (run a.next s w t).length)).map (fun k => t + 1 + k * P) ∧
      ∀ k m, k < acquired a (run a.next s w t).length → m < P →
        (a.burst s w (t + 1 + (k * P + m))).busy = true ∧
          ((a.burst s w (t + 1 + (k * P + m))).out = true ↔ m = 0) := by
  have off := rested_off created idle rested
  obtain ⟨q, rfl⟩ : ∃ q, P = q + 2 := ⟨P - 2, by omega⟩
  have counts : ∀ u, t ≤ u → u ≤ e → trunc (getLength a.pulseburst.period)
      (a.burstInput (w u) (run a.next s w u)).period = q := by
    intro u after before
    have storage : (run a.next s w u).samplingPeriodCycles = q := by
      have here := steady u after before
      omega
    rw [← storage]
    exact period_value (period_lt created w u) (by omega)
  rw [burst_run] at window idle off ⊢
  have bounded := (create_idle created).1
  have ending := window_length (fun _ => rfl) bounded counts (by omega) window idle off
  refine ⟨ending, window_pulses (fun _ => rfl) bounded counts (by omega) window idle off, ?_⟩
  intro k m few short
  have last : t + 1 + (k * (q + 2) + m) ≤ e := by
    have bound := Nat.mul_le_mul_right (q + 2) (Nat.succ_le_of_lt few)
    rw [Nat.succ_mul] at bound
    have whole : e = t + acquired a (run a.next s w t).length * (q + 2) := ending
    omega
  have here := at_phase (fun _ => rfl) bounded counts (by omega) window idle off k m
    (Nat.le_of_lt_succ few) (by omega) last
  exact ⟨here.busy, here.out⟩

variable (maxSamplesInBits : ℕ) {i : ℕ → Signals a.dataWidth} {least : Bool}
variable (mode : ∀ u, t ≤ u → u ≤ e → (i u).reduceMode = if least then 2 else 1)
include mode

private theorem stored_late :
    Late least (fun u => number a.dataSigned (i u).input) P (t + 1)
      (number a.dataSigned
        ((reduction a.dataSigned maxSamplesInBits (a.burst s w) i t).peak least))
      ((sampled (a.burst s w) (value a.dataSigned maxSamplesInBits (a.burst s w) i)
        (t + 1) (e + 1)).map (number a.dataSigned)) := by
  obtain ⟨ending, pulses, cycles⟩ := burst_cycles created window idle rested slow steady
  have after := window.after
  have some_sample : 0 < acquired a (run a.next s w t).length := Nat.succ_pos _
  -- the value in the cycle of a pulse is what the register held in the cycle before
  have stored (k : ℕ) (few : k < acquired a (run a.next s w t).length) :
      ((sampled (a.burst s w) (value a.dataSigned maxSamplesInBits (a.burst s w) i)
        (t + 1) (e + 1)).map (number a.dataSigned))[k]? =
          some (number a.dataSigned ((reduction a.dataSigned maxSamplesInBits (a.burst s w) i
            (t + k * P)).peak least)) := by
    have bound := Nat.mul_le_mul_right P (Nat.le_of_lt few)
    have cycle : t + 1 + k * P = t + k * P + 1 := by omega
    rw [sampled, pulses, List.map_map, List.map_map, List.getElem?_map, List.getElem?_range few]
    simp only [Option.map_some, Function.comp_apply]
    rw [cycle, value_succ, selected_peak (mode _ (by omega) (by omega))]
  refine ⟨?_, ?_⟩
  · rw [stored 0 some_sample, Nat.zero_mul, Nat.add_zero]
  · intro k x here
    have few : k + 1 < acquired a (run a.next s w t).length := by
      have below := (List.getElem?_eq_some_iff.mp here).1
      rw [sampled, pulses] at below
      simpa using below
    have period : (k + 1) * P = k * P + P := Nat.succ_mul k P
    have last : t + 1 + (k + 1) * P - 1 = t + (k + 1) * P := by omega
    rw [stored (k + 1) few] at here
    rw [← Option.some.inj here, last]
    apply reduction_peak least (by omega)
    · exact (cycles k 0 (by omega) (by omega)).2.mpr rfl
    · intro u later earlier
      have cycle := cycles k (u - (t + 1 + k * P)) (by omega) (by omega)
      rw [show t + 1 + (k * P + (u - (t + 1 + k * P))) = u by omega] at cycle
      refine ⟨?_, cycle.1⟩
      rw [Bool.eq_false_iff, Ne, cycle.2]
      omega

end Bursts

private theorem stored_samples {κ μ : Type*} {s : State} (created : a.create = .ok s)
    {w : ℕ → Input} {t e : ℕ}
    (window : Window (a.burst s w) (fun k => (w k).trigger) t e) {csr : CsrStorage (a.dataWidth + 1) κ}
    {port : MemoryPort a.dataWidth a.dataDepth μ} (value : ℕ → BitVec a.dataWidth)
    (bus : ℕ → Option Word) (register : Register a.dataWidth a.dataDepth κ μ)
    (room : acquired a (run a.next s w t).length ≤ a.dataDepth) :
    ((List.range (acquired a (run a.next s w t).length)).map fun k =>
        port.mem (record csr port (a.burst s w) value bus register (e + 1)).memory
          (acquired a (run a.next s w t).length - 1 - k)) =
      sampled (a.burst s w) value (t + 1) (e + 1) := by
  have full := window_samples created window
  have length := sampled_length full value
  apply List.ext_getElem
  · simp [length]
  · intro k left right
    rw [List.length_map, List.length_range] at left
    have order : acquired a (run a.next s w t).length - 1 -
        (acquired a (run a.next s w t).length - 1 - k) = k := by omega
    rw [List.getElem_map, List.getElem_range,
      memory_entry created window full (Nat.lt_succ_self e) (fun u later before => by omega)
        (Nat.succ_pos _) value bus register (by omega) room, order,
      List.getD_eq_getElem _ _ right]

/-- A burst from rest stores the extrema of its time bins exactly if every bin has the extremum of
the one before it without its last cycle, and the first one that of the register before. -/
theorem time_bins_iff {κ μ : Type*} (a : Arguments) (maxSamplesInBits : ℕ) (s : State)
    (created : a.create = .ok s) (w : ℕ → Input) (t e : ℕ)
    (window : Window (a.burst s w) (fun k => (w k).trigger) t e)
    (idle : (a.burst s w t).busy = false) (rested : t = 0 ∨ (a.burst s w (t - 1)).busy = false)
    (P : ℕ) (slow : 3 ≤ P)
    (steady : ∀ u, t ≤ u → u ≤ e → (run a.next s w u).samplingPeriodCycles + 2 = P)
    (i : ℕ → Signals a.dataWidth) (least : Bool)
    (mode : ∀ u, t ≤ u → u ≤ e → (i u).reduceMode = if least then 2 else 1) :
    (Binned least (fun u => number a.dataSigned (i u).input) P (t + 1) (e + 1)
        ((sampled (a.burst s w) (value a.dataSigned maxSamplesInBits (a.burst s w) i)
          (t + 1) (e + 1)).map (number a.dataSigned)) ↔
      Aligned least (fun u => number a.dataSigned (i u).input) P (t + 1)
        (acquired a (run a.next s w t).length)
        (number a.dataSigned
          ((reduction a.dataSigned maxSamplesInBits (a.burst s w) i t).peak least))) ∧
    ∀ (csr : CsrStorage (a.dataWidth + 1) κ) (port : MemoryPort a.dataWidth a.dataDepth μ)
      (bus : ℕ → Option Word) (register : Register a.dataWidth a.dataDepth κ μ),
      acquired a (run a.next s w t).length ≤ a.dataDepth →
      ((List.range (acquired a (run a.next s w t).length)).map fun k =>
          port.mem (record csr port (a.burst s w)
            (value a.dataSigned maxSamplesInBits (a.burst s w) i) bus register (e + 1)).memory
            (acquired a (run a.next s w t).length - 1 - k)) =
        sampled (a.burst s w) (value a.dataSigned maxSamplesInBits (a.burst s w) i) (t + 1) (e + 1) := by
  constructor
  · have late := stored_late created window idle rested slow steady maxSamplesInBits mode
    have length := sampled_length (window_samples created window)
      (value a.dataSigned maxSamplesInBits (a.burst s w) i)
    have ending := (burst_cycles created window idle rested slow steady).1
    have same := late_bins_iff late
    rw [List.length_map, length, Nat.add_right_comm, ← ending] at same
    exact same
  · intro csr port bus register room
    exact stored_samples created window _ bus register room

def twice : ℕ → Input := fun k => ⟨k == 0 || k == 9, none⟩

def steadyThree : ℕ → Signals (two none).dataWidth := fun _ => ⟨3, 0, 0, 0, 1⟩

theorem time_bins_constant :
    Binned false (fun u => number (two none).dataSigned (steadyThree u).input) 3 10 16
      ((sampled ((two none).burst twoPowerUp twice)
        (value (two none).dataSigned 20 ((two none).burst twoPowerUp twice) steadyThree) 10 16).map
          (number (two none).dataSigned)) := by
  have window : Window ((two none).burst twoPowerUp twice) (fun k => (twice k).trigger) 9 15 := by
    refine ⟨⟨rfl, rfl, .inl rfl⟩, by decide, ⟨by decide +kernel, by decide +kernel⟩, ?_⟩
    intro u later before
    have each : ∀ u : Fin 15, 9 < u.val → ¬ (((two none).burst twoPowerUp twice u).pulsegen.out = true ∧
        ((two none).burst twoPowerUp twice u).count = 0) := by decide +kernel
    exact each ⟨u, before⟩ later
  have steady : ∀ u, 9 ≤ u → u ≤ 15 →
      (run (two none).next twoPowerUp twice u).samplingPeriodCycles + 2 = 3 := by
    intro u _ before
    have each : ∀ u : Fin 16,
        (run (two none).next twoPowerUp twice u).samplingPeriodCycles + 2 = 3 := by decide +kernel
    exact each ⟨u, by omega⟩
  have bins := (time_bins_iff (κ := ℕ) (μ := ℕ) (two none) 20 twoPowerUp rfl twice 9 15 window
    (by decide +kernel) (.inr (by decide +kernel)) 3 le_rfl steady steadyThree false
    fun _ _ _ => rfl).1
  have register : number (two none).dataSigned ((reduction (two none).dataSigned 20
      ((two none).burst twoPowerUp twice) steadyThree 9).peak false) = 3 := by decide +kernel
  apply bins.mpr
  rw [register]
  exact aligned_const false 3 (by decide) 10 _

def third : ℕ → Input := fun k => ⟨k == 2, none⟩

def rising : ℕ → Signals (two none).dataWidth := fun u => ⟨if u < 3 then 0 else 3, 0, 0, 0, 1⟩

/-- The first one of the values is the maximum of the input before the trigger. -/
theorem time_bins_counterexample :
    Window ((two none).burst twoPowerUp third) (fun k => (third k).trigger) 2 8 ∧
      (∀ u ≤ 2, ((two none).burst twoPowerUp third u).busy = false) ∧
      (sampled ((two none).burst twoPowerUp third)
        (value (two none).dataSigned 20 ((two none).burst twoPowerUp third) rising) 3 9).map
          (number (two none).dataSigned) = [0, 3] ∧
      ¬ Binned false (fun u => number (two none).dataSigned (rising u).input) 3 3 9 [0, 3] := by
  have first : ∀ u < 8, 2 < u → ¬ (((two none).burst twoPowerUp third u).pulsegen.out = true ∧
      ((two none).burst twoPowerUp third u).count = 0) := by decide +kernel
  refine ⟨⟨⟨by decide +kernel, rfl, .inl rfl⟩, by decide, ⟨by decide +kernel, by decide +kernel⟩,
    fun u later before => first u before later⟩, by decide +kernel, by decide +kernel, ?_⟩
  rintro ⟨b, from_first, to_last, each⟩
  obtain rfl : b = 3 := by
    simp only [List.length_cons, List.length_nil] at to_last
    omega
  have best : Extremum false (seen (fun u => number (two none).dataSigned (rising u).input) 3 6) 0 :=
    each 0 0 rfl
  have three := best.2 (mem_seen.mpr ⟨3, le_rfl, by decide, rfl⟩)
  exact absurd three (by decide)

end Pypga.Modules.TimeBins
