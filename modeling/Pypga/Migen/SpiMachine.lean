/- GID: Pypga/Migen/SpiMachine
   generality: G
   digest: The SPI transfer machine with its clock generator and shift register, cycle by cycle. -/

import Pypga.Foundation.ClockedMachine
import Pypga.Migen.Operands

set_option autoImplicit false
set_option relaxedAutoImplicit false

namespace Pypga.Migen.SpiMachine

open Pypga.Foundation.FixedWidth (trunc)
open Pypga.Migen.Operands (getLength)

/-- Constructor arguments of `SPIMachine`. -/
structure SpiConfig where
  dataWidth : ℕ
  clockDiv : ℕ
  leadingHalfcycles : ℕ
  trailingHalfcycles : ℕ
  idleHalfcycles : ℕ

inductive ClockGenState
  | idle | counting
  deriving DecidableEq

/-- The registers of `ClockGen`; its `start` is driven by the transfer machine. -/
structure ClockGen where
  fsm : ClockGenState
  counter : ℕ
  deriving DecidableEq

/-- High when the half cycle is over, but not while the generator is being started. -/
def ClockGen.done (g : ClockGen) (start : Bool) : Bool := g.counter == 0 && !start

def ClockGen.next (div : ℕ) (start : Bool) (g : ClockGen) : ClockGen :=
  let width := getLength (.int div)
  match g.fsm with
  | .idle => if start then ⟨.counting, trunc width ((div : ℤ) - 1)⟩ else g
  | .counting =>
    if g.done start then ⟨.idle, g.counter⟩
    -- kept high, `start` would make this wrap and count forever
    else ⟨.counting, trunc width ((g.counter : ℤ) - 1)⟩

/-- The registers of `Register`, the shift register and its serial output. -/
structure ShiftRegister (w : ℕ) where
  srCurrent : BitVec w
  sdo : Bool
  deriving DecidableEq

/-- `sr_current` shifted by one bit in the direction of transmission. -/
def ShiftRegister.srNext {w : ℕ} (r : ShiftRegister w) (lsbFirst : Bool) : BitVec w :=
  if lsbFirst then r.srCurrent >>> 1 else r.srCurrent <<< 1

def outgoing {w : ℕ} (lsbFirst : Bool) (word : BitVec w) : Bool :=
  if lsbFirst then word.getLsbD 0 else word.msb

def ShiftRegister.next {w : ℕ} (init shift lsbFirst : Bool) (pdo : BitVec w)
    (r : ShiftRegister w) : ShiftRegister w :=
  if shift then ⟨r.srNext lsbFirst, outgoing lsbFirst (r.srNext lsbFirst)⟩
  else if init then ⟨pdo, outgoing lsbFirst pdo⟩
  else r

inductive SpiState
  | idle | leadingHalfcycles | firstHalfcycle | secondHalfcycle | trailingHalfcycles
  | idleHalfcycles
  deriving DecidableEq

structure SpiInput (w : ℕ) where
  start : Bool
  clkPhase : Bool
  lsbFirst : Bool
  pdo : BitVec w

/-- The registers of `SPIMachine` and of its two submodules. -/
structure Spi (w : ℕ) where
  fsm : SpiState
  cgStart : Bool
  counter : ℕ
  cg : ClockGen
  reg : ShiftRegister w
  deriving DecidableEq

def SpiConfig.counterWidth (c : SpiConfig) : ℕ :=
  max (max (max (getLength (.int c.dataWidth)) (getLength (.int c.leadingHalfcycles)))
    (getLength (.int c.trailingHalfcycles))) (getLength (.int c.idleHalfcycles))

def SpiConfig.powerUp (c : SpiConfig) : Spi c.dataWidth where
  fsm := .idle
  cgStart := false
  counter := 0
  cg := ⟨.idle, 0⟩
  reg := ⟨0, false⟩

/-- What one state of the finite state machine drives: the combinational signals, which are
low by default, and the registers' next values, which by default do not change. -/
structure Drive where
  idle : Bool := false
  cs : Bool := false
  clk : Bool := false
  init : Bool := false
  shift : Bool := false
  fsm : SpiState
  cgStart : Bool
  counter : ℕ

def SpiConfig.act (c : SpiConfig) (i : SpiInput c.dataWidth) (s : Spi c.dataWidth) : Drive :=
  let load (n : ℕ) : ℕ := trunc c.counterWidth n
  let less : ℕ := trunc c.counterWidth ((s.counter : ℤ) - 1)
  let done := s.cg.done s.cgStart
  let keep : Drive := { fsm := s.fsm, cgStart := s.cgStart, counter := s.counter }
  match s.fsm with
  | .idle =>
    let keep := { keep with idle := true }
    if i.start then
      if i.clkPhase then
        -- at least one leading half cycle
        { keep with
          cgStart := true
          counter := load (c.leadingHalfcycles + if c.leadingHalfcycles = 0 then 1 else 0)
          fsm := .leadingHalfcycles }
      else
        { keep with
          cgStart := decide (c.leadingHalfcycles > 0)
          counter := load c.leadingHalfcycles
          fsm := .leadingHalfcycles }
    else { keep with cgStart := false }
  | .leadingHalfcycles =>
    let keep := { keep with cs := true }
    if s.counter = 0 then
      { keep with
        cgStart := true, counter := load c.dataWidth, init := true, fsm := .firstHalfcycle }
    else if done then
      { keep with
        cgStart := decide (s.counter > 1), counter := less, fsm := .leadingHalfcycles }
    else { keep with cgStart := false }
  | .firstHalfcycle =>
    let keep := { keep with cs := true, clk := i.clkPhase && decide (s.counter > 0) }
    if s.counter = 0 then
      { keep with
        cgStart := decide (c.trailingHalfcycles > 0)
        counter := load c.trailingHalfcycles
        fsm := .trailingHalfcycles }
    else if done then { keep with cgStart := true, fsm := .secondHalfcycle }
    else { keep with cgStart := false }
  | .secondHalfcycle =>
    let keep := { keep with cs := true, clk := !i.clkPhase }
    if done then
      { keep with
        shift := true
        cgStart := decide (s.counter > 1)
        counter := less
        fsm := .firstHalfcycle }
    else { keep with cgStart := false }
  | .trailingHalfcycles =>
    let keep := { keep with cs := true }
    if s.counter = 0 then
      { keep with
        cgStart := decide (c.idleHalfcycles > 0)
        counter := load c.idleHalfcycles
        fsm := .idleHalfcycles }
    else if done then
      { keep with
        cgStart := decide (s.counter > 1), counter := less, fsm := .trailingHalfcycles }
    else { keep with cgStart := false }
  | .idleHalfcycles =>
    if s.counter = 0 then { keep with cgStart := false, fsm := .idle }
    else if done then
      { keep with
        cgStart := decide (s.counter > 1), counter := less, fsm := .idleHalfcycles }
    else { keep with cgStart := false }

def SpiConfig.next (c : SpiConfig) (i : SpiInput c.dataWidth) (s : Spi c.dataWidth) :
    Spi c.dataWidth :=
  let drive := c.act i s
  { fsm := drive.fsm
    cgStart := drive.cgStart
    counter := drive.counter
    cg := s.cg.next c.clockDiv s.cgStart
    reg := s.reg.next drive.init drive.shift i.lsbFirst i.pdo }

def selected : SpiState → Bool
  | .idle | .idleHalfcycles => false
  | .leadingHalfcycles | .firstHalfcycle | .secondHalfcycle | .trailingHalfcycles => true

theorem act_cs (c : SpiConfig) (i : SpiInput c.dataWidth) (s : Spi c.dataWidth) :
    (c.act i s).cs = selected s.fsm := by
  cases state : s.fsm <;> simp only [SpiConfig.act, state, selected] <;> split_ifs <;> rfl

theorem act_idle (c : SpiConfig) (i : SpiInput c.dataWidth) (s : Spi c.dataWidth) :
    (c.act i s).idle = (s.fsm == .idle) := by
  cases state : s.fsm <;> simp only [SpiConfig.act, state] <;> split_ifs <;> rfl

theorem act_init (c : SpiConfig) (i : SpiInput c.dataWidth) (s : Spi c.dataWidth) :
    (c.act i s).init = (s.fsm == .leadingHalfcycles && s.counter == 0) := by
  cases state : s.fsm <;> simp only [SpiConfig.act, state] <;> split_ifs <;> simp_all

theorem act_clk (c : SpiConfig) (i : SpiInput c.dataWidth) (s : Spi c.dataWidth) :
    (c.act i s).clk = match s.fsm with
      | .firstHalfcycle => i.clkPhase && decide (0 < s.counter)
      | .secondHalfcycle => !i.clkPhase
      | _ => false := by
  cases state : s.fsm <;> simp only [SpiConfig.act, state] <;> split_ifs <;> simp_all

theorem clk_low_of_cs_low (c : SpiConfig) (i : SpiInput c.dataWidth) (s : Spi c.dataWidth)
    (unselected : (c.act i s).cs = false) : (c.act i s).clk = false := by
  rw [act_cs] at unselected
  rw [act_clk]
  cases state : s.fsm <;> rw [state] at unselected <;> first | rfl | cases unselected

end Pypga.Migen.SpiMachine
