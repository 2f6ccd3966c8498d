/- GID: Pypga/Migen/PulseGenerators
   generality: G
   digest: The endless pulse generator and the burst generator built on it, cycle by cycle. -/

import Pypga.Foundation.ClockedMachine
import Pypga.Migen.Operands

set_option autoImplicit false
set_option relaxedAutoImplicit false

namespace Pypga.Migen.PulseGenerators

open Pypga.Foundation.FixedWidth (trunc trunc_pred trunc_neg_one)
open Pypga.Migen.Operands (Operand getLength getResetValue)

/-- Constructor arguments of `MigenPulseGen`, the `on` input apart. -/
structure PulseGenConfig where
  period : Operand
  highAfterOn : Bool
  firstCyclePeriodOffset : ℤ

/-- The registers of `MigenPulseGen`. -/
structure PulseGen where
  out : Bool
  count : ℕ
  carry : Bool
  deriving DecidableEq

/-- `restart` has no driver and keeps its reset value. -/
def restart : Bool := false

def PulseGenConfig.powerUp (c : PulseGenConfig) (periodReset : ℤ) : PulseGen where
  out := false
  count := trunc (getLength c.period) (periodReset - c.firstCyclePeriodOffset)
  carry := c.highAfterOn

def PulseGenConfig.create (c : PulseGenConfig) : Except String PulseGen :=
  match getResetValue c.period with
  | none => .error "int() argument must be a string or a number"
  | some periodReset =>
    if periodReset < 0 then .error "period must be at least 0."
    else .ok (c.powerUp periodReset)

/-- One clock edge, with the values `period` and `on` have in this cycle. -/
def PulseGenConfig.next (c : PulseGenConfig) (period : ℤ) (on : Bool) (s : PulseGen) : PulseGen :=
  let width := getLength c.period
  let out := s.carry && on
  if !on then
    -- prepare for the first pulse when off
    { out, carry := c.highAfterOn, count := trunc width (period - c.firstCyclePeriodOffset) }
  else if s.carry || restart then
    { out, carry := false, count := trunc width period }
  else
    -- `Cat(count, carry)` takes the difference, so the borrow lands in `carry`
    let difference := trunc (width + 1) ((s.count : ℤ) - 1)
    { out, carry := difference / 2 ^ width == 1, count := difference % 2 ^ width }

/-- Constructor arguments of `MigenPulseBurstGen`, the control inputs apart. -/
structure BurstConfig where
  period : Operand
  pulses : Operand

def BurstConfig.pulsegen (c : BurstConfig) : PulseGenConfig where
  period := c.period
  highAfterOn := false
  firstCyclePeriodOffset := 1

/-- What the burst generator sees in one cycle. -/
structure BurstInput where
  trigger : Bool
  reset : Bool
  pulses : ℤ
  period : ℤ

/-- The registers of `MigenPulseBurstGen`. -/
structure BurstGen where
  pulsegen : PulseGen
  pulsegenOn : Bool
  out : Bool
  count : ℕ
  busy : Bool
  deriving DecidableEq

def BurstConfig.create (c : BurstConfig) : Except String BurstGen :=
  c.pulsegen.create.map fun g =>
    { pulsegen := g, pulsegenOn := false, out := false, count := 0, busy := false }

def BurstConfig.next (c : BurstConfig) (i : BurstInput) (s : BurstGen) : BurstGen :=
  let width := getLength c.pulses
  let s' := { s with
    pulsegen := c.pulsegen.next i.period s.pulsegenOn s.pulsegen
    out := false
    pulsegenOn := !i.reset && (s.busy || i.trigger) }
  if i.reset then
    { s' with out := false, busy := false, count := 0, pulsegenOn := false }
  else if !s.busy then
    if i.trigger then { s' with busy := true, out := true, count := trunc width i.pulses }
    else s'
  else if s.pulsegen.out then
    if s.count = 0 then
      if i.trigger then { s' with out := true, count := trunc width i.pulses }
      else { s' with busy := false }
    else { s' with out := true, count := trunc width ((s.count : ℤ) - 1) }
  else s'

/-- The count register borrows out of zero and into `carry`, and only there. -/
theorem pulsegen_countdown (c : PulseGenConfig) (period : ℤ) (s : PulseGen)
    (quiet : s.carry = false) (fits : s.count < 2 ^ getLength c.period) :
    c.next period true s =
      if s.count = 0 then ⟨false, 2 ^ getLength c.period - 1, true⟩
      else ⟨false, s.count - 1, false⟩ := by
  have wide : (0 : ℕ) < 2 ^ getLength c.period := Nat.two_pow_pos _
  have double : 2 ^ (getLength c.period + 1) = 2 * 2 ^ getLength c.period := by
    rw [Nat.pow_succ, Nat.mul_comm]
  simp only [PulseGenConfig.next, quiet, restart, Bool.not_true, Bool.or_false, Bool.false_and]
  by_cases zero : s.count = 0
  · have all : trunc (getLength c.period + 1) ((s.count : ℤ) - 1) =
        2 ^ getLength c.period + (2 ^ getLength c.period - 1) := by
      rw [zero, show ((0 : ℕ) : ℤ) - 1 = -1 by rfl, trunc_neg_one, double]
      omega
    have high : (2 ^ getLength c.period + (2 ^ getLength c.period - 1)) / 2 ^ getLength c.period = 1 := by
      rw [Nat.add_div_left _ wide, Nat.div_eq_of_lt (by omega)]
    rw [all, high, Nat.add_mod_left, Nat.mod_eq_of_lt (by omega)]
    simp [zero]
  · have less : trunc (getLength c.period + 1) ((s.count : ℤ) - 1) = s.count - 1 :=
      trunc_pred (by omega) (by omega)
    rw [less, Nat.div_eq_of_lt (by omega), Nat.mod_eq_of_lt (by omega)]
    simp [zero]

end Pypga.Migen.PulseGenerators
