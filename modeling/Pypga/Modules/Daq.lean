/- GID: Pypga/Modules/Daq
   generality: G
   digest: The DAQ module: its registers, and the burst generator that times its samples. -/

import Pypga.Core.Registers
import Pypga.Migen.BurstWindows

set_option autoImplicit false
set_option relaxedAutoImplicit false

namespace Pypga.Modules.Daq

open Pypga.Foundation.ClockedMachine (run run_component)
open Pypga.Migen.Operands (signedMinusUnsigned)
open Pypga.Migen.PulseGenerators
open Pypga.Migen.BurstWindows
open Pypga.Core.Registers

/-- The arguments of `DAQ` that its timing and its data depend on; the RAM starts at the default
address. -/
structure Arguments where
  dataDepth : ℕ
  dataWidth : ℕ
  dataDecimals : ℕ
  samplingPeriodWidth : ℕ
  defaultSamplingPeriod : ℤ
  dataSigned : Bool
  axiHpIndex : Option ℕ

namespace Arguments

variable (a : Arguments)

def samplingPeriodCycles : NumberRegister where
  width := a.samplingPeriodWidth
  default := some (a.defaultSamplingPeriod - 2)
  offsetFromPython := -2
  min := some 2

def length : NumberRegister where
  width := a.samplingPeriodWidth
  default := some a.dataDepth
  offsetFromPython := -1

/-- The keyword given for the order is `reversed`. -/
def data : FixedPointRegister := .custom [.width a.dataWidth, .depth a.dataDepth, .default none,
  .other "reversed", .readonly true, .signed a.dataSigned, .decimals a.dataDecimals,
  .ramOffset (a.axiHpIndex.map (· * 0x800000))]

/-- `MigenPulseBurstGen(pulses=self.length - 1, period=self.sampling_period_cycles)`. -/
def pulseburst : BurstConfig where
  pulses := .expression (signedMinusUnsigned a.samplingPeriodWidth 1)
  period := .signal a.samplingPeriodWidth (a.defaultSamplingPeriod - 2)

end Arguments

inductive Assignment
  | length (value : ℚ)
  | samplingPeriodCycles (value : ℚ)

/-- What happens in one cycle; `trigger` is the software trigger too. -/
structure Input where
  trigger : Bool
  assigned : Option Assignment

structure State where
  length : ℕ
  samplingPeriodCycles : ℕ
  pulseburst : BurstGen

namespace Arguments

variable (a : Arguments)

def create : Except String State :=
  if a.axiHpIndex.all (· < 4) then
    a.pulseburst.create.map fun g => ⟨a.length.powerUp, a.samplingPeriodCycles.powerUp, g⟩
  else .error "Only 4 AXI_HP ports are available"

def burstInput (i : Input) (s : State) : BurstInput where
  trigger := i.trigger
  reset := false
  pulses := a.length.signal s.length - 1
  period := a.samplingPeriodCycles.signal s.samplingPeriodCycles

def next (i : Input) (s : State) : State where
  pulseburst := a.pulseburst.next (a.burstInput i s) s.pulseburst
  length :=
    match i.assigned with
    | some (.length value) => a.length.assigned value
    | _ => s.length
  samplingPeriodCycles :=
    match i.assigned with
    | some (.samplingPeriodCycles value) => a.samplingPeriodCycles.assigned value
    | _ => s.samplingPeriodCycles

def burst (s : State) (w : ℕ → Input) (k : ℕ) : BurstGen := (run a.next s w k).pulseburst

end Arguments

variable {a : Arguments}

theorem burst_run (s : State) (w : ℕ → Input) :
    a.burst s w = run a.pulseburst.next s.pulseburst fun k => a.burstInput (w k) (run a.next s w k) :=
  run_component State.pulseburst a.burstInput (fun _ _ => rfl) s w

theorem next_length_of_kept {i : Input} (kept : ∀ value, i.assigned ≠ some (.length value)) (s : State) :
    (a.next i s).length = s.length := by
  unfold Arguments.next
  dsimp only
  split
  · rename_i value assigned
    exact absurd assigned (kept value)
  · rfl

theorem next_period_of_kept {i : Input}
    (kept : ∀ value, i.assigned ≠ some (.samplingPeriodCycles value)) (s : State) :
    (a.next i s).samplingPeriodCycles = s.samplingPeriodCycles := by
  unfold Arguments.next
  dsimp only
  split
  · rename_i value assigned
    exact absurd assigned (kept value)
  · rfl

theorem create_registers {s : State} (created : a.create = .ok s) :
    a.pulseburst.create = .ok s.pulseburst ∧ s.length = a.length.powerUp ∧
      s.samplingPeriodCycles = a.samplingPeriodCycles.powerUp := by
  unfold Arguments.create at created
  split at created
  · cases generator : a.pulseburst.create with
    | error e => simp [generator, Except.map] at created
    | ok g =>
      simp only [generator, Except.map, Except.ok.injEq] at created
      subst created
      exact ⟨rfl, rfl, rfl⟩
  · cases created

theorem create_off {s : State} (created : a.create = .ok s) :
    s.pulseburst.busy = false ∧ s.pulseburst.out = false ∧ s.pulseburst.pulsegenOn = false := by
  obtain ⟨value, idle⟩ := create_eq (create_registers created).1
  rw [idle]
  exact ⟨rfl, rfl, rfl⟩

theorem create_idle {s : State} (created : a.create = .ok s) :
    Bounded a.pulseburst s.pulseburst ∧ s.pulseburst.busy = false ∧ s.length = a.length.powerUp := by
  obtain ⟨generator, length, -⟩ := create_registers created
  exact ⟨bounded_create generator, (create_off created).1, length⟩

theorem port_of_create {s : State} (created : a.create = .ok s) {h : ℕ} (port : a.axiHpIndex = some h) :
    h < 4 := by
  unfold Arguments.create at created
  split at created
  · rename_i some_port
    simpa [port] using some_port
  · cases created

end Pypga.Modules.Daq
