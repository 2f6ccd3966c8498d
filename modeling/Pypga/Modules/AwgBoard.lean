/- GID: Pypga/Modules/AwgBoard
   generality: G
   digest: The AWG module on the bus of the server, and the assignments to its attributes as accesses. -/

import Pypga.Core.RegisterFile
import Pypga.Core.SharedRegister
import Pypga.Modules.Awg

set_option autoImplicit false
set_option relaxedAutoImplicit false

namespace Pypga.Modules.AwgBoard

open Pypga.Foundation.FixedWidth (trunc)
open Pypga.Foundation.LittleEndian (Word)
open Pypga.Remote.MonitorServer (Bus)
open Pypga.Remote.SocketClient (Op)
open Pypga.Core.MemoryRegister (CsrStorage MemoryPort)
open Pypga.Core.WordEncoding (AnyRegister)
open Pypga.Core.RegisterNames (Access)
open Pypga.Core.RegisterFile (Exception remoteOp)
open Pypga.Modules.Awg

inductive Port
  | data
  | samplingPeriodCycles
  | alwaysOn
  | softwareTrigger
  deriving DecidableEq

def ports : List Port := [.data, .samplingPeriodCycles, .alwaysOn, .softwareTrigger]

structure Addresses where
  address : Port → ℕ
  small : ∀ p, address p < 2 ^ 32
  apart : Function.Injective address

namespace Addresses

variable (l : Addresses)

def word (p : Port) : Word := BitVec.ofNat 32 (l.address p)

def decoder (a : Word) : Option Port := ports.find? fun p => l.word p = a

private theorem word_injective {p q : Port} (same : l.word p = l.word q) : p = q := by
  have addresses := congrArg BitVec.toNat same
  rw [word, word, BitVec.toNat_ofNat, BitVec.toNat_ofNat, Nat.mod_eq_of_lt (l.small p),
    Nat.mod_eq_of_lt (l.small q)] at addresses
  exact l.apart addresses

theorem decoder_word (p : Port) : l.decoder (l.word p) = some p := by
  cases found : l.decoder (l.word p) with
  | none =>
    have there : p ∈ ports := by cases p <;> decide
    have absent := List.find?_eq_none.mp found p there
    simp at absent
  | some q =>
    have same : l.word q = l.word p := by simpa using List.find?_some found
    rw [l.word_injective same]

end Addresses

/-- `awg.data = values`, `awg.sampling_period_cycles = value`, `awg.always_on = value` and
`awg.software_trigger()`. -/
inductive Statement
  | data (values : List ℚ)
  | samplingPeriodCycles (value : ℚ)
  | alwaysOn (value : ℚ)
  | softwareTrigger
  deriving DecidableEq

def Statement.port : Statement → Port
  | data _ => .data
  | samplingPeriodCycles _ => .samplingPeriodCycles
  | alwaysOn _ => .alwaysOn
  | softwareTrigger => .softwareTrigger

section Calls

variable (a : Arguments)

/-- What `__set__`, or the function that the trigger returns, hands to the interface. -/
def sent : Statement → ℤ ⊕ List ℤ
  | .data values => .inr (values.reverse.map (AnyRegister.fixedPoint a.data).encoded)
  | .samplingPeriodCycles value => .inl ((AnyRegister.number a.samplingPeriodCycles).encoded value)
  | .alwaysOn value => .inl ((AnyRegister.bool Awg.alwaysOn).encoded value)
  | .softwareTrigger => .inl 0

def clientOp (uint32 : ℤ → Option Word) (l : Addresses) (s : Statement) : Except Exception Op :=
  remoteOp uint32 (.writeToAddress (l.address s.port) (sent a s))

end Calls

/-- The board seen by the server: the module after some cycles, the strobe of its software trigger,
the cycles by which the next accesses come later than they may, and everything else. -/
structure Board (a : Arguments) (κ μ ν ρ : Type*) where
  awg : State a.dataWidth a.dataDepth κ μ ν
  strobe : Bool
  cycle : ℕ
  late : ℕ → ℕ
  rest : ρ

section Cycles

variable {a : Arguments} {κ μ ν ρ : Type*} (csr : CsrStorage (a.dataWidth + 1) κ)
  (memory : MemoryPort a.dataWidth a.dataDepth μ) (playback : ReadPort a.dataWidth a.dataDepth ν)

-- the trigger that other gateware gives to the module
variable (gate : ℕ → Bool)

namespace Board

def stored (written : Option (Port × Word)) (s : State a.dataWidth a.dataDepth κ μ ν) :
    State a.dataWidth a.dataDepth κ μ ν :=
  match written with
  | some (.samplingPeriodCycles, word) =>
    { s with samplingPeriodCycles := trunc a.samplingPeriodWidth word.toNat }
  | some (.alwaysOn, word) => { s with alwaysOn := trunc Awg.alwaysOn.width word.toNat }
  | _ => s

def busWord : Option (Port × Word) → Option Word
  | some (.data, word) => some word
  | _ => none

def strobes : Option (Port × Word) → Bool
  | some (.softwareTrigger, _) => true
  | _ => false

def step (written : Option (Port × Word)) (d : Board a κ μ ν ρ) : Board a κ μ ν ρ :=
  { d with
    awg := stored written
      (a.next csr memory playback ⟨gate d.cycle, d.strobe, none, busWord written⟩ d.awg)
    strobe := strobes written
    cycle := d.cycle + 1 }

def wait (n : ℕ) (d : Board a κ μ ν ρ) : Board a κ μ ν ρ :=
  (step csr memory playback gate none)^[n] d

def tick (written : Option (Port × Word)) (d : Board a κ μ ν ρ) : Board a κ μ ν ρ :=
  { wait csr memory playback gate (5 + d.late 0) (step csr memory playback gate written d) with
    late := fun k => d.late (k + 1) }

variable {csr} in
def value (csr : CsrStorage (a.dataWidth + 1) κ) (d : Board a κ μ ν ρ) : Port → Word
  | .data => (csr.storage d.awg.data.csr).setWidth 32
  | .samplingPeriodCycles => BitVec.ofNat 32 d.awg.samplingPeriodCycles
  | .alwaysOn => BitVec.ofNat 32 d.awg.alwaysOn
  | .softwareTrigger => 0

end Board

/-- The registers at their addresses, in front of all other addresses. -/
def awgBus (l : Addresses) (rest : Bus ρ) : Bus (Board a κ μ ν ρ) where
  load address d :=
    match l.decoder address with
    | some p => (d.value csr p, d.tick csr memory playback gate none)
    | none =>
      let found := rest.load address d.rest
      (found.1, { d.tick csr memory playback gate none with rest := found.2 })
  store address value d :=
    match l.decoder address with
    | some p => d.tick csr memory playback gate (some (p, value))
    | none => { d.tick csr memory playback gate none with rest := rest.store address value d.rest }
  fetch offset d := (rest.fetch offset d.rest).map fun found => (found.1, { d with rest := found.2 })
  handed d := rest.handed d.rest
  mapped offset d inside := by
    rw [Option.isSome_map]
    exact rest.mapped offset d.rest inside

end Cycles

end Pypga.Modules.AwgBoard
