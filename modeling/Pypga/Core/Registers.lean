/- GID: Pypga/Core/Registers
   generality: G
   digest: Register classes: their attributes, and the conversions between Python values and words. -/

import Mathlib.Data.Rat.Floor
import Pypga.Foundation.Rounding
import Pypga.Migen.Operands

set_option autoImplicit false
set_option relaxedAutoImplicit false

namespace Pypga.Core.Registers

open Pypga.Foundation.FixedWidth (trunc trunc_of_fits)
open Pypga.Foundation.Rounding (halfEven)
open Pypga.Migen.Operands (getLength)

/-- The class attributes of `_Register`; the default is that of a register without depth. -/
structure Register where
  width : ℕ := 1
  default : Option ℤ := some 0
  readonly : Bool := false
  offsetFromPython : ℤ := 0
  depth : ℕ := 1
  reverse : Bool := false
  ramOffset : Option ℕ := none
  signed : Bool := false

structure BoolRegister extends Register where
  invert : Bool := false
  bit : ℕ := 0

structure NumberRegister extends Register where
  signed := true
  min : Option ℚ := none
  max : Option ℚ := none

structure FixedPointRegister extends NumberRegister where
  decimals : ℕ := 0

/-- `int` of a number truncates towards zero. -/
def pyInt (value : ℚ) : ℤ := if 0 ≤ value then value.floor else value.ceil

@[simp] theorem py_int_cast (v : ℤ) : pyInt (v : ℚ) = v := by
  unfold pyInt
  split
  · exact Rat.floor_intCast v
  · exact Rat.ceil_intCast v

inductive Quotient
  | finite (q : ℚ)
  | infinite (negative : Bool)
  | nan
  deriving DecidableEq

def divide (x d : ℚ) : Quotient :=
  if d = 0 then if x = 0 then .nan else .infinite (x < 0) else .finite (x / d)

namespace Register

variable (r : Register)

def toPython (value : ℤ) : ℤ := value - r.offsetFromPython

/-- A value over the maximum saturates at `1 << width`. -/
def fromPython (value : ℚ) : ℤ :=
  let value := pyInt value + r.offsetFromPython
  if value < 0 then 0 else if 2 ^ r.width ≤ value then 2 ^ r.width else value

end Register

namespace BoolRegister

variable (r : BoolRegister)

def fromPython (value : ℚ) : ℤ :=
  let value : Bool := if r.invert then !decide (value ≠ 0) else decide (value ≠ 0)
  r.toRegister.fromPython ((value.toNat <<< r.bit : ℕ) : ℚ)

/-- `(value >> self.bit) & 0x1`. -/
def toPython (value : ℤ) : Bool :=
  let value := decide (r.toRegister.toPython value / 2 ^ r.bit % 2 = 1)
  if r.invert then !value else value

/-- What `__set__` leaves in the storage. -/
def assigned (value : ℚ) : ℕ := trunc r.width (r.fromPython value)

def powerUp : ℕ := trunc r.width (r.default.getD 0)

end BoolRegister

namespace NumberRegister

variable (r : NumberRegister)

def intMax : ℤ := if r.signed then 2 ^ (r.width - 1) - 1 else 2 ^ r.width - 1

def intMin : ℤ := if r.signed then - 2 ^ (r.width - 1) else 0

def readWidth : ℕ := if r.ramOffset.isNone then r.width else 32

def toPython (value : ℤ) : ℤ :=
  let value := r.toRegister.toPython value
  if r.signed ∧ 2 ^ (r.readWidth - 1) ≤ value then value - 2 ^ r.readWidth else value

/-- `_to_python_array`, for one element. -/
def toPythonElement (value : ℕ) : ℚ :=
  let value : ℚ := (value : ℚ) - r.offsetFromPython
  if r.signed ∧ 2 ^ (r.readWidth - 1) ≤ value then value - 2 ^ r.readWidth else value

def beforeFromPython (value : ℚ) : ℚ :=
  if r.max.any fun most => most < value then r.max.getD value
  else if r.min.any fun least => value < least then r.min.getD value
  else value

def fromPython (value : ℚ) : ℤ :=
  let value : ℚ := if value < r.intMin then r.intMin else if r.intMax < value then r.intMax else value
  let value : ℚ := if r.signed ∧ value < 0 then value + 2 ^ r.width else value
  r.toRegister.fromPython value

/-- What `__set__` leaves in the storage of a register without depth. -/
def assigned (value : ℚ) : ℕ := trunc r.width (r.fromPython (r.beforeFromPython value))

def powerUp : ℕ := trunc r.width (r.default.getD 0)

def signal (storage : ℕ) : ℤ :=
  if r.signed ∧ 2 ^ (r.width - 1) ≤ storage then (storage : ℤ) - 2 ^ r.width else storage

private theorem trunc_signal {storage : ℕ} (fits : storage < 2 ^ r.width) :
    trunc r.width (r.signal storage) = storage := by
  rw [signal]
  split
  · rw [trunc, Int.sub_emod_right, ← trunc, trunc_of_fits fits]
  · exact trunc_of_fits fits

theorem trunc_signal_operand {storage : ℕ} (reset : ℤ) (nonempty : 1 ≤ r.width)
    (fits : storage < 2 ^ r.width) :
    trunc (getLength (.signal r.width reset)) (r.signal storage) = storage := by
  have wide : getLength (.signal r.width reset) = r.width := if_neg (Nat.not_lt.mpr nonempty)
  rw [wide]
  exact r.trunc_signal fits

theorem signal_value {storage : ℕ} (reset : ℤ) (fits : storage < 2 ^ r.width) (positive : 1 ≤ storage) :
    trunc (getLength (.signal r.width reset)) (r.signal storage) = storage := by
  refine r.trunc_signal_operand reset ?_ fits
  by_contra none
  rw [Nat.lt_one_iff.mp (Nat.not_le.mp none)] at fits
  omega

end NumberRegister

namespace FixedPointRegister

variable (r : FixedPointRegister)

/-- Without decimals the divisor is zero, which raises. -/
def toPython (value : ℤ) : Option ℚ :=
  if (2 : ℚ) ^ r.decimals - 1 = 0 then none
  else some (r.toNumberRegister.toPython value / (2 ^ r.decimals - 1))

/-- `round` takes ties to the even integer. -/
def fromPython (value : ℚ) : ℤ :=
  r.toNumberRegister.fromPython (halfEven (value * (2 ^ r.decimals - 1)))

/-- `_to_python_array`, for one element. -/
def toPythonElement (value : ℕ) : Quotient :=
  divide (r.toNumberRegister.toPythonElement value) (2 ^ r.decimals - 1)

/-- A keyword of `custom`; it becomes a class attribute of its name, whatever the name is. -/
inductive Keyword
  | width (v : ℕ)
  | depth (v : ℕ)
  | default (v : Option ℤ)
  | readonly (v : Bool)
  | signed (v : Bool)
  | decimals (v : ℕ)
  | ramOffset (v : Option ℕ)
  | reverse (v : Bool)
  | other (name : String)

def set (r : FixedPointRegister) : Keyword → FixedPointRegister
  | .width v => { r with width := v }
  | .depth v => { r with depth := v }
  | .default v => { r with default := v }
  | .readonly v => { r with readonly := v }
  | .signed v => { r with signed := v }
  | .decimals v => { r with decimals := v }
  | .ramOffset v => { r with ramOffset := v }
  | .reverse v => { r with reverse := v }
  | .other _ => r

def custom (keywords : List Keyword) : FixedPointRegister := keywords.foldl set {}

end FixedPointRegister

end Pypga.Core.Registers
