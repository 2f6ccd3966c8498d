/- GID: Pypga/Modules/SamplingPeriod
   generality: G
   digest: The assigned sampling period is the one of the hardware, unless it is the declared minimum. -/

import Pypga.Core.OffsetLaw
import Pypga.Migen.BurstPeriods
import Pypga.Modules.Playback
import Pypga.Modules.TimeOrder

set_option autoImplicit false
set_option relaxedAutoImplicit false

namespace Pypga.Modules.SamplingPeriod

open Pypga.Foundation.ClockedMachine (run run_assigned)
open Pypga.Foundation.FixedWidth
open Pypga.Migen.Operands (getLength)
open Pypga.Migen.BurstPeriods
open Pypga.Migen.BurstSchedule (off_of_rested)
open Pypga.Migen.BurstWindows
open Pypga.Core.MemoryRegister (CsrStorage MemoryPort)
open Pypga.Core.Registers
open Pypga.Core.OffsetLaw
open Pypga.Migen

/-- The register `sampling_period_cycles` of both modules. -/
def samplingPeriodCycles (width : ℕ) (default : ℤ) : NumberRegister where
  width := width
  default := some default
  offsetFromPython := -2
  min := some 2

section Register

variable {width : ℕ} (default : ℤ) {P : ℕ} (least : 2 ≤ P) (most : P < 2 ^ (width - 1))
include least most

theorem period_assigned : (samplingPeriodCycles width default).assigned P = P - 2 ∧
    (samplingPeriodCycles width default).toPython (P - 2 : ℕ) = P := by
  have range : (P : ℤ) < 2 ^ (width - 1) := by exact_mod_cast most
  have half : 2 ^ (width - 1) ≤ 2 ^ width := Nat.pow_le_pow_right (by decide) (Nat.sub_le width 1)
  have whole : (2 : ℤ) ^ (width - 1) ≤ 2 ^ width := by exact_mod_cast half
  have inside : InRange (samplingPeriodCycles width default) P := by
    have positive : (0 : ℤ) < 2 ^ (width - 1) := by positivity
    refine ⟨?_, ?_⟩
    · simp only [NumberRegister.intMin, samplingPeriodCycles, if_true]
      omega
    · simp only [NumberRegister.intMax, samplingPeriodCycles, if_true]
      omega
  have within : InLimits (samplingPeriodCycles width default) P := by
    refine ⟨?_, ?_⟩
    · intro limit is
      obtain rfl : 2 = limit := Option.some.inj is
      exact_mod_cast least
    · intro limit is
      cases is
  have natural : complement (samplingPeriodCycles width default) P = P := if_neg (by omega)
  have offset : (samplingPeriodCycles width default).offsetFromPython = -2 := rfl
  have bits : (samplingPeriodCycles width default).width = width := rfl
  refine ⟨?_, ?_⟩
  · have word := word_eq inside within
    rw [natural, offset, bits] at word
    have value : max 0 (min ((2 : ℤ) ^ width) (P + -2)) = ((P - 2 : ℕ) : ℤ) := by omega
    rw [value] at word
    rw [NumberRegister.assigned, bits]
    have cast : ((P : ℕ) : ℚ) = ((P : ℤ) : ℚ) := (Int.cast_natCast P).symm
    rw [cast, word]
    exact trunc_of_fits (by omega)
  · rw [to_python_eq fun _ => rfl, offset, decoded, bits, if_neg]
    · omega
    · rintro ⟨-, large⟩
      omega

theorem period_counted (reset : ℤ) : trunc (getLength (.signal width reset))
    ((samplingPeriodCycles width default).signal (P - 2)) = P - 2 := by
  have half : 2 ^ (width - 1) ≤ 2 ^ width := Nat.pow_le_pow_right (by decide) (Nat.sub_le width 1)
  apply (samplingPeriodCycles width default).trunc_signal_operand reset
  · show 1 ≤ width
    by_contra none
    rw [Nat.lt_one_iff.mp (Nat.not_le.mp none)] at most
    omega
  · show P - 2 < 2 ^ width
    omega

end Register

/-- A burst of the DAQ from rest, whose sampling period was assigned before and not since. -/
structure DaqBurst (a : Daq.Arguments) (s : Daq.State) (w : ℕ → Daq.Input) (P u₀ t e : ℕ) : Prop where
  created : a.create = .ok s
  assigned : (w u₀).assigned = some (.samplingPeriodCycles P)
  kept : ∀ u, u₀ < u → u < e → ∀ value, (w u).assigned ≠ some (.samplingPeriodCycles value)
  later : u₀ < t
  window : Window (a.burst s w) (fun k => (w k).trigger) t e
  idle : (a.burst s w t).busy = false
  rested : (a.burst s w (t - 1)).busy = false

structure AwgBurst {κ μ ν : Type*} (a : Awg.Arguments) (csr : CsrStorage (a.dataWidth + 1) κ)
    (memory : MemoryPort a.dataWidth a.dataDepth μ) (playback : Awg.ReadPort a.dataWidth a.dataDepth ν)
    (s : Awg.State a.dataWidth a.dataDepth κ μ ν) (w : ℕ → Awg.Input) (P u₀ t e : ℕ) : Prop where
  created : ∃ data port, a.create data port = .ok s
  assigned : (w u₀).assigned = some (.samplingPeriodCycles P)
  kept : ∀ u, u₀ < u → u < e → ∀ value, (w u).assigned ≠ some (.samplingPeriodCycles value)
  later : u₀ < t
  window : Window (a.burst csr memory playback s w)
    (fun k => a.trigger (w k) (a.history csr memory playback s w k)) t e
  idle : (a.burst csr memory playback s w t).busy = false
  rested : (a.burst csr memory playback s w (t - 1)).busy = false

section Bursts

variable {P u₀ t e : ℕ} (least : 2 ≤ P)

section Daq

variable {a : Daq.Arguments} (most : P < 2 ^ (a.samplingPeriodWidth - 1)) {s : Daq.State}
variable {w : ℕ → Daq.Input} (b : DaqBurst a s w P u₀ t e)
include least most b

private theorem daq_storage (u : ℕ) (after : u₀ < u) (before : u ≤ e) :
    (run a.next s w u).samplingPeriodCycles = P - 2 := by
  have kept (v : ℕ) (later : u₀ < v) (earlier : v < u) :=
    Daq.next_period_of_kept (a := a) (b.kept v later (earlier.trans_le before))
  apply run_assigned Daq.State.samplingPeriodCycles _ after kept
  intro s
  simp only [Daq.Arguments.next, b.assigned]
  exact (period_assigned _ least most).1

private theorem daq_spaced_iff : SpacedBy P (a.burst s w) (t + 1) e ↔
    3 ≤ P ∨ AcquisitionLength.acquired a (run a.next s w t).length = 1 := by
  have counts : ∀ u, t ≤ u → u ≤ e → trunc (getLength a.pulseburst.period)
      (a.burstInput (w u) (run a.next s w u)).period = P - 2 := by
    intro u after before
    have storage := daq_storage least most b u (lt_of_lt_of_le b.later after) before
    rw [Daq.Arguments.burstInput, storage]
    exact period_counted _ least most _
  have idle := b.idle
  have rested := b.rested
  have window := b.window
  have bounded := (Daq.create_idle b.created).1
  have off := (Daq.create_off b.created).2.2
  rw [Daq.burst_run] at idle rested window ⊢
  have spaced := spaced_by_iff (fun _ => rfl) bounded window counts idle
    (off_of_rested (fun _ => rfl) off idle (.inr rested))
  rw [Nat.sub_add_cancel least] at spaced
  rw [spaced, AcquisitionLength.acquired]
  exact or_congr (by omega) Nat.succ_inj.symm

end Daq

section Awg

variable {κ μ ν : Type*} {a : Awg.Arguments} (most : P < 2 ^ (a.samplingPeriodWidth - 1))
variable {csr : CsrStorage (a.dataWidth + 1) κ} {memory : MemoryPort a.dataWidth a.dataDepth μ}
variable {playback : Awg.ReadPort a.dataWidth a.dataDepth ν}
variable {s : Awg.State a.dataWidth a.dataDepth κ μ ν} {w : ℕ → Awg.Input}
variable (b : AwgBurst a csr memory playback s w P u₀ t e)
include least most b

private theorem awg_storage (u : ℕ) (after : u₀ < u) (before : u ≤ e) :
    (a.history csr memory playback s w u).samplingPeriodCycles = P - 2 := by
  have kept (v : ℕ) (later : u₀ < v) (earlier : v < u) :=
    Awg.next_period_of_kept csr memory playback (b.kept v later (earlier.trans_le before))
  apply run_assigned Awg.State.samplingPeriodCycles _ after kept
  intro s
  simp only [Awg.Arguments.next, b.assigned]
  exact (period_assigned _ least most).1

private theorem awg_spaced_iff (deep : 2 ≤ a.dataDepth) :
    SpacedBy P (a.burst csr memory playback s w) (t + 1) e ↔ 3 ≤ P := by
  have counts : ∀ u, t ≤ u → u ≤ e → trunc (getLength a.pulseburst.period)
      (a.burstInput (w u) (a.history csr memory playback s w u)).period = P - 2 := by
    intro u after before
    have storage := awg_storage least most b u (lt_of_lt_of_le b.later after) before
    rw [Awg.Arguments.burstInput, storage]
    exact period_counted _ least most _
  obtain ⟨data, port, created⟩ := b.created
  have idle := b.idle
  have rested := b.rested
  have window := b.window
  obtain ⟨bounded, -, off⟩ := Awg.create_rest created
  rw [Awg.burst_run] at idle rested window ⊢
  have spaced := spaced_by_iff (fun _ => rfl) bounded window counts idle
    (off_of_rested (fun _ => rfl) off idle (.inr rested))
  have pulses : trunc (getLength a.pulseburst.pulses)
      (a.burstInput (w t) (a.history csr memory playback s w t)).pulses = a.dataDepth - 1 :=
    Playback.pulses_value deep
  rw [Nat.sub_add_cancel least, pulses] at spaced
  rw [spaced]
  omega

end Awg

end Bursts

/-- A sampling period that the register admits is read back, and it is the distance of the pulses
of every burst from rest, exactly if it is not the minimum, or the burst has a single pulse. -/
theorem sampling_period_iff (P : ℕ) (least : 2 ≤ P) :
    (∀ (a : Daq.Arguments) (s : Daq.State) (w : ℕ → Daq.Input) (u₀ t e : ℕ),
      P < 2 ^ (a.samplingPeriodWidth - 1) → DaqBurst a s w P u₀ t e →
      (∀ u, u₀ < u → u ≤ e →
        a.samplingPeriodCycles.toPython (run a.next s w u).samplingPeriodCycles = P) ∧
      (SpacedBy P (a.burst s w) (t + 1) e ↔
        3 ≤ P ∨ AcquisitionLength.acquired a (run a.next s w t).length = 1)) ∧
    (∀ (κ μ ν : Type) (a : Awg.Arguments) (csr : CsrStorage (a.dataWidth + 1) κ)
      (memory : MemoryPort a.dataWidth a.dataDepth μ)
      (playback : Awg.ReadPort a.dataWidth a.dataDepth ν)
      (s : Awg.State a.dataWidth a.dataDepth κ μ ν) (w : ℕ → Awg.Input) (u₀ t e : ℕ),
      2 ≤ a.dataDepth → P < 2 ^ (a.samplingPeriodWidth - 1) →
      AwgBurst a csr memory playback s w P u₀ t e →
      (∀ u, u₀ < u → u ≤ e → a.samplingPeriodCycles.toPython
        (a.history csr memory playback s w u).samplingPeriodCycles = P) ∧
      (SpacedBy P (a.burst csr memory playback s w) (t + 1) e ↔ 3 ≤ P)) := by
  refine ⟨?_, ?_⟩
  · intro a s w u₀ t e most b
    refine ⟨?_, daq_spaced_iff least most b⟩
    intro u after before
    rw [daq_storage least most b u after before]
    exact (period_assigned _ least most).2
  · intro κ μ ν a csr memory playback s w u₀ t e deep most b
    refine ⟨?_, awg_spaced_iff least most b deep⟩
    intro u after before
    rw [awg_storage least most b u after before]
    exact (period_assigned _ least most).2

open Pypga.Modules.TimeOrder (two twoPowerUp)

def assignThenTrigger (P : ℕ) : ℕ → Daq.Input :=
  fun k => ⟨k == 1, if k = 0 then some (.samplingPeriodCycles P) else none⟩

private theorem assign_then_trigger_burst {P e : ℕ} (after : 1 < e)
    (ending : ((two none).burst twoPowerUp (assignThenTrigger P) e).pulsegen.out = true ∧
      ((two none).burst twoPowerUp (assignThenTrigger P) e).count = 0)
    (first : ∀ u, 1 < u → u < e →
      ¬ (((two none).burst twoPowerUp (assignThenTrigger P) u).pulsegen.out = true ∧
        ((two none).burst twoPowerUp (assignThenTrigger P) u).count = 0)) :
    DaqBurst (two none) twoPowerUp (assignThenTrigger P) P 0 1 e := by
  refine ⟨rfl, rfl, ?_, by decide, ⟨⟨rfl, rfl, .inl rfl⟩, after, ending, first⟩, rfl, rfl⟩
  intro u later _ value assigned
  have none : (assignThenTrigger P u).assigned = none := if_neg (by omega)
  rw [none] at assigned
  cases assigned

theorem sampling_period_three :
    SpacedBy 3 ((two none).burst twoPowerUp (assignThenTrigger 3)) 2 7 := by
  have burst : DaqBurst (two none) twoPowerUp (assignThenTrigger 3) 3 0 1 7 := by
    apply assign_then_trigger_burst (by decide) (by decide +kernel)
    intro u later before
    have each : ∀ u : Fin 7, 1 < u.val →
        ¬ (((two none).burst twoPowerUp (assignThenTrigger 3) u).pulsegen.out = true ∧
          ((two none).burst twoPowerUp (assignThenTrigger 3) u).count = 0) := by decide +kernel
    exact each ⟨u, before⟩ later
  exact (((sampling_period_iff 3 (by decide)).1 _ _ _ _ _ _ (by decide) burst).2).mpr (.inl le_rfl)

/-- With the minimum, in four bits, the second pulse comes after eighteen cycles. -/
theorem sampling_period_counterexample :
    DaqBurst (two none) twoPowerUp (assignThenTrigger 2) 2 0 1 21 ∧
      BurstSpacing.Consecutive ((two none).burst twoPowerUp (assignThenTrigger 2)) 2 20 ∧
      ¬ SpacedBy 2 ((two none).burst twoPowerUp (assignThenTrigger 2)) 2 21 := by
  have apart : BurstSpacing.Consecutive ((two none).burst twoPowerUp (assignThenTrigger 2)) 2 20 := by
    decide +kernel
  refine ⟨?_, apart, ?_⟩
  · apply assign_then_trigger_burst (by decide) (by decide +kernel)
    intro u later before
    have each : ∀ u : Fin 21, 1 < u.val →
        ¬ (((two none).burst twoPowerUp (assignThenTrigger 2) u).pulsegen.out = true ∧
          ((two none).burst twoPowerUp (assignThenTrigger 2) u).count = 0) := by decide +kernel
    exact each ⟨u, before⟩ later
  · intro spaced
    have wrong := spaced 2 20 le_rfl (by decide) apart
    cases wrong

end Pypga.Modules.SamplingPeriod
