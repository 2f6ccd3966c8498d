/- GID: Pypga/Migen/Operands
   generality: G
   digest: Integers, constants and signals as constructor arguments, with their widths and reset values. -/

import Pypga.Foundation.FixedWidth

set_option autoImplicit false
set_option relaxedAutoImplicit false

namespace Pypga.Migen.Operands

/-- What a constructor accepts where the source writes `Union[Signal, Constant, int]`;
an expression over signals is accepted too and has a width but no reset value. -/
inductive Operand
  | int (value : ℤ)
  | constant (value : ℤ) (nbits : ℕ)
  | signal (nbits : ℕ) (reset : ℤ)
  | expression (nbits : ℕ)
  deriving DecidableEq

/-- `int.bit_length`: the sign does not count. -/
def bitLength (v : ℤ) : ℕ := if v = 0 then 0 else v.natAbs.log2 + 1

/-- `len` of a constant or a signal, the bit length of an integer. -/
def len : Operand → ℕ
  | .int v => bitLength v
  | .constant _ nbits => nbits
  | .signal nbits _ => nbits
  | .expression nbits => nbits

def getLength (o : Operand) : ℕ := if len o < 1 then 1 else len o

/-- The width of the difference of a signed and an unsigned operand: the latter needs a sign bit,
and the result one bit more. -/
def signedMinusUnsigned (signed unsigned : ℕ) : ℕ := max signed (unsigned + 1) + 1

/-- The value the operand has at power-up; `int` of an expression raises. -/
def getResetValue : Operand → Option ℤ
  | .int v => some v
  | .constant v _ => some v
  | .signal _ reset => some reset
  | .expression _ => none

theorem get_length_pos (o : Operand) : 0 < getLength o := by
  unfold getLength
  split <;> omega

theorem lt_two_pow_bit_length (n : ℕ) : n < 2 ^ bitLength (n : ℤ) := by
  by_cases zero : n = 0
  · simp [bitLength, zero]
  · have log : n < 2 ^ (n.log2 + 1) := Nat.lt_log2_self
    simpa [bitLength, zero] using log

theorem lt_two_pow_get_length (n : ℕ) : n < 2 ^ getLength (.int n) := by
  have fits : n < 2 ^ len (.int n) := lt_two_pow_bit_length n
  unfold getLength
  split
  · rename_i small
    have none : len (.int n) = 0 := by omega
    rw [none] at fits
    omega
  · exact fits

/-- An operand whose value never changes, together with the natural number it always is. -/
structure Steady where
  operand : Operand
  value : ℕ
  reset : getResetValue operand = some (value : ℤ)
  fits : value < 2 ^ getLength operand

def Steady.ofNat (n : ℕ) : Steady := ⟨.int n, n, rfl, lt_two_pow_get_length n⟩

end Pypga.Migen.Operands
