/- GID: Pypga/Modules/Awg
   generality: G
   digest: The AWG module: its registers, its memory with the port that plays it, and its burst generator. -/

import Pypga.Core.MemoryRegister
import Pypga.Core.Registers
import Pypga.Foundation.LittleEndian
import Pypga.Migen.BurstWindows

set_option autoImplicit false
set_option relaxedAutoImplicit false

namespace Pypga.Modules.Awg

open Pypga.Foundation.ClockedMachine (run run_component)
open Pypga.Foundation.LittleEndian (Word)
open Pypga.Migen.PulseGenerators
open Pypga.Migen.BurstWindows
open Pypga.Core.MemoryRegister
open Pypga.Core.Registers

/-- The arguments of `Awg` that its timing and its data depend on. -/
structure Arguments where
  dataDepth : ℕ
  dataWidth : ℕ
  dataDecimals : ℕ
  dataSigned : Bool
  initialData : Option (List ℚ)
  samplingPeriodWidth : ℕ
  defaultSamplingPeriodCycles : ℤ

/-- `BoolRegister(default=False)`. -/
def alwaysOn : BoolRegister where
  default := some 0

namespace Arguments

variable (a : Arguments)

/-- Its default is the list `initialData`, which only the memory takes. -/
def data : FixedPointRegister := .custom [.width a.dataWidth, .depth a.dataDepth, .reverse true,
  .readonly false, .signed a.dataSigned, .decimals a.dataDecimals]

def samplingPeriodCycles : NumberRegister where
  width := a.samplingPeriodWidth
  default := some (a.defaultSamplingPeriodCycles - 2)
  offsetFromPython := -2
  min := some 2

/-- `MigenPulseBurstGen(pulses=data_depth - 1, period=self.sampling_period_cycles)`. -/
def pulseburst : BurstConfig where
  pulses := .int ((a.dataDepth : ℤ) - 1)
  period := .signal a.samplingPeriodWidth (a.defaultSamplingPeriodCycles - 2)

/-- The word of a value: `from_python(before_from_python(v))`, in the bits of the memory. -/
def encode (value : ℚ) : BitVec a.dataWidth :=
  BitVec.ofInt a.dataWidth (a.data.fromPython (a.data.beforeFromPython value))

/-- The words that `__set__` sends, the last value first. -/
def assignedWords (values : List ℚ) : List (BitVec a.dataWidth) := values.reverse.map a.encode

/-- The entries the memory is initialised with, zero behind the last one that is given. -/
def initialMemory (i : ℕ) : BitVec a.dataWidth :=
  match a.initialData with
  | none => 0
  | some values => (values.map a.encode).reverse.getD i 0

end Arguments

/-- What the module relies on of the port that reads the memory for the gateware: in the cycle
after an address it shows that entry. Nothing is said of a read in the cycle of a write, or of
addresses behind the last entry. -/
structure ReadPort (width depth : ℕ) (ν : Type*) where
  datR : ν → BitVec width
  next : BitVec (adrWidth depth) → (ℕ → BitVec width) → Bool → ν → ν
  dat_r_next : ∀ adr mem p, adr.toNat < depth → datR (next adr mem false p) = mem adr.toNat

def dataRegister (width depth : ℕ) : ReadPort width depth (BitVec width) where
  datR p := p
  next adr mem _ _ := mem adr.toNat
  dat_r_next _ _ _ _ := rfl

inductive Assignment
  | samplingPeriodCycles (value : ℚ)
  | alwaysOn (value : ℚ)

/-- What happens in one cycle: the two triggers, an assignment, and the word that is written to
the register of the data. -/
structure Input where
  trigger : Bool
  softwareTrigger : Bool
  assigned : Option Assignment
  bus : Option Word

structure State (width depth : ℕ) (κ μ ν : Type*) where
  samplingPeriodCycles : ℕ
  alwaysOn : ℕ
  data : Register width depth κ μ
  port : ν
  pulseburst : BurstGen

variable {a : Arguments} {κ μ ν : Type*}

namespace Arguments

variable (a)

def create (data : Register a.dataWidth a.dataDepth κ μ) (port : ν) :
    Except String (State a.dataWidth a.dataDepth κ μ ν) :=
  a.pulseburst.create.map fun g =>
    ⟨a.samplingPeriodCycles.powerUp, Awg.alwaysOn.powerUp, data, port, g⟩

/-- `self.trigger | self.software_trigger | self.always_on`. -/
def trigger (i : Input) (s : State a.dataWidth a.dataDepth κ μ ν) : Bool :=
  i.trigger || i.softwareTrigger || s.alwaysOn != 0

def burstInput (i : Input) (s : State a.dataWidth a.dataDepth κ μ ν) : BurstInput where
  trigger := a.trigger i s
  reset := false
  pulses := (a.dataDepth : ℤ) - 1
  period := a.samplingPeriodCycles.signal s.samplingPeriodCycles

variable (csr : CsrStorage (a.dataWidth + 1) κ) (memory : MemoryPort a.dataWidth a.dataDepth μ)
variable (playback : ReadPort a.dataWidth a.dataDepth ν)

def next (i : Input) (s : State a.dataWidth a.dataDepth κ μ ν) :
    State a.dataWidth a.dataDepth κ μ ν where
  samplingPeriodCycles :=
    match i.assigned with
    | some (.samplingPeriodCycles value) => a.samplingPeriodCycles.assigned value
    | _ => s.samplingPeriodCycles
  alwaysOn :=
    match i.assigned with
    | some (.alwaysOn value) => Awg.alwaysOn.assigned value
    | _ => s.alwaysOn
  data := edge csr memory false i.bus none s.data
  port := playback.next (BitVec.ofNat _ s.pulseburst.count) (memory.mem s.data.memory) s.data.we s.port
  pulseburst := a.pulseburst.next (a.burstInput i s) s.pulseburst

def history (s : State a.dataWidth a.dataDepth κ μ ν) (w : ℕ → Input) :
    ℕ → State a.dataWidth a.dataDepth κ μ ν :=
  run (a.next csr memory playback) s w

def burst (s : State a.dataWidth a.dataDepth κ μ ν) (w : ℕ → Input) (k : ℕ) : BurstGen :=
  (a.history csr memory playback s w k).pulseburst

def out (s : State a.dataWidth a.dataDepth κ μ ν) (w : ℕ → Input) (k : ℕ) : BitVec a.dataWidth :=
  playback.datR (a.history csr memory playback s w k).port

end Arguments

variable {csr : CsrStorage (a.dataWidth + 1) κ} {memory : MemoryPort a.dataWidth a.dataDepth μ}
variable {playback : ReadPort a.dataWidth a.dataDepth ν}
variable {data : Register a.dataWidth a.dataDepth κ μ} {port : ν}
variable {s : State a.dataWidth a.dataDepth κ μ ν}

variable (csr memory playback) in
theorem burst_run (s : State a.dataWidth a.dataDepth κ μ ν) (w : ℕ → Input) :
    a.burst csr memory playback s w = run a.pulseburst.next s.pulseburst
      fun k => a.burstInput (w k) (a.history csr memory playback s w k) :=
  run_component State.pulseburst a.burstInput (fun _ _ => rfl) s w

variable (csr memory playback) in
theorem next_period_of_kept {i : Input}
    (kept : ∀ value, i.assigned ≠ some (.samplingPeriodCycles value))
    (s : State a.dataWidth a.dataDepth κ μ ν) :
    (a.next csr memory playback i s).samplingPeriodCycles = s.samplingPeriodCycles := by
  unfold Arguments.next
  dsimp only
  split
  · rename_i value assigned
    exact absurd assigned (kept value)
  · rfl

theorem create_registers (created : a.create data port = .ok s) :
    a.pulseburst.create = .ok s.pulseburst ∧ s.data = data ∧
      s.samplingPeriodCycles = a.samplingPeriodCycles.powerUp := by
  cases generator : a.pulseburst.create with
  | error e => simp [Arguments.create, generator, Except.map] at created
  | ok g =>
    simp only [Arguments.create, generator, Except.map, Except.ok.injEq] at created
    subst created
    exact ⟨rfl, rfl, rfl⟩

theorem create_rest (created : a.create data port = .ok s) :
    Bounded a.pulseburst s.pulseburst ∧ s.pulseburst.busy = false ∧ s.pulseburst.pulsegenOn = false := by
  have generator := (create_registers created).1
  obtain ⟨value, idle⟩ := create_eq generator
  refine ⟨bounded_create generator, ?_, ?_⟩ <;> rw [idle]

end Pypga.Modules.Awg
