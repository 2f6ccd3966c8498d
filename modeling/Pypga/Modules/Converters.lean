/- GID: Pypga/Modules/Converters
   generality: G
   digest: The codes of the analog converters and the signed registers between them. -/

import Mathlib.Tactic.Linarith
import Pypga.Foundation.ClockedMachine

set_option autoImplicit false
set_option relaxedAutoImplicit false

namespace Pypga.Modules.Converters

open Pypga.Foundation.ClockedMachine (run run_succ)

/-- `Cat(~v[:-1], v[-1])` in a signal as wide as `v`: the sign stays and the slope is negative. -/
def negativeSlope {n : ℕ} (v : BitVec n) : BitVec n :=
  (BitVec.cons v.msb (~~~(v.setWidth (n - 1)))).setWidth n

/-- The ports of the two channels of the `adc` resource. -/
structure AdcPorts (p : ℕ) where
  dataA : BitVec p
  dataB : BitVec p

/-- `data[2:]` in a signal of `n` bits: the lowest two bits are reserved for wider converters. -/
def code {p : ℕ} (n : ℕ) (data : BitVec p) : BitVec n := (data.extractLsb' 2 (p - 2)).setWidth n

/-- The registers of `_Adc`. -/
structure Adc (n : ℕ) where
  adcDatA : BitVec n
  adcDatB : BitVec n
  in1 : BitVec n
  in2 : BitVec n
  deriving DecidableEq

def Adc.next {p n : ℕ} (adc : AdcPorts p) (s : Adc n) : Adc n where
  adcDatA := code n adc.dataA
  adcDatB := code n adc.dataB
  in1 := negativeSlope s.adcDatA
  in2 := negativeSlope s.adcDatB

/-- The signed registers of `_Dac`, which its surroundings drive. -/
structure DacInput (n : ℕ) where
  out1 : BitVec n
  out2 : BitVec n
  deriving DecidableEq

/-- The registers of `_Dac` whose bits go to the converter. -/
structure Dac (n : ℕ) where
  dacDatA : BitVec n
  dacDatB : BitVec n
  deriving DecidableEq

def Dac.next {n : ℕ} (i : DacInput n) (_ : Dac n) : Dac n where
  dacDatA := negativeSlope i.out1
  dacDatB := negativeSlope i.out2

structure Channels (n : ℕ) where
  adc : Adc n
  out : DacInput n
  dac : Dac n
  deriving DecidableEq

def Channels.next {p n : ℕ} (ports : AdcPorts p) (s : Channels n) : Channels n where
  adc := s.adc.next ports
  out := ⟨s.adc.in1, s.adc.in2⟩
  dac := s.dac.next s.out

section Readings

variable {m : ℕ}

private theorem exists_cons (v : BitVec (m + 1)) : ∃ sign x, v = BitVec.cons sign x :=
  ⟨v.msb, v.setWidth m, (BitVec.cons_msb_setWidth v).symm⟩

@[simp] theorem negative_slope_cons (sign : Bool) (x : BitVec m) :
    negativeSlope (.cons sign x) = .cons sign (~~~x) := by
  simp [negativeSlope]

private theorem to_nat_cons (sign : Bool) (x : BitVec m) :
    ((BitVec.cons sign x).toNat : ℤ) = (if sign then 2 ^ m else 0) + x.toNat := by
  rw [BitVec.toNat_cons', Nat.shiftLeft_eq]
  cases sign <;> push_cast <;> simp

private theorem to_int_cons (sign : Bool) (x : BitVec m) :
    (BitVec.cons sign x).toInt = x.toNat - if sign then 2 ^ m else 0 := by
  have range : (2 : ℤ) ^ (m + 1) = 2 * 2 ^ m := by rw [pow_succ]; omega
  rw [BitVec.toInt_eq_msb_cond, BitVec.msb_cons, to_nat_cons]
  push_cast
  cases sign with
  | false => simp
  | true => simp only [if_true]; omega

private theorem to_nat_complement (x : BitVec m) : ((~~~x).toNat : ℤ) = 2 ^ m - 1 - x.toNat := by
  have fits := x.isLt
  have exact : ((2 ^ m : ℕ) : ℤ) = 2 ^ m := by push_cast; rfl
  rw [BitVec.toNat_not]
  omega

end Readings

section Codes

variable {n : ℕ} (wide : 2 ≤ n)
include wide

private theorem to_int_negative_slope (c : BitVec n) :
    (negativeSlope c).toInt = 2 ^ (n - 1) - 1 - c.toNat := by
  obtain ⟨m, rfl⟩ : ∃ m, n = m + 1 := ⟨n - 1, by omega⟩
  obtain ⟨sign, x, rfl⟩ := exists_cons c
  rw [negative_slope_cons, to_int_cons, to_nat_cons, to_nat_complement, Nat.add_sub_cancel]
  omega

private theorem to_nat_negative_slope (s : BitVec n) :
    ((negativeSlope s).toNat : ℤ) = 2 ^ (n - 1) - 1 - s.toInt := by
  obtain ⟨m, rfl⟩ : ∃ m, n = m + 1 := ⟨n - 1, by omega⟩
  obtain ⟨sign, x, rfl⟩ := exists_cons s
  rw [negative_slope_cons, to_nat_cons, to_int_cons, to_nat_complement, Nat.add_sub_cancel]
  omega

private theorem negative_slope_negative_slope (v : BitVec n) :
    negativeSlope (negativeSlope v) = v := by
  apply BitVec.eq_of_toNat_eq
  have there := to_int_negative_slope wide v
  have back := to_nat_negative_slope wide (negativeSlope v)
  omega

private theorem to_int_lt_iff (c d : BitVec n) :
    (negativeSlope d).toInt < (negativeSlope c).toInt ↔ c.toNat < d.toNat := by
  rw [to_int_negative_slope wide, to_int_negative_slope wide]
  omega

private theorem to_nat_lt_iff (s t : BitVec n) :
    (negativeSlope t).toNat < (negativeSlope s).toNat ↔ s.toInt < t.toInt := by
  have first := to_nat_negative_slope wide s
  have second := to_nat_negative_slope wide t
  omega

private theorem channels_delay {p : ℕ} (s : Channels n) (w : ℕ → AdcPorts p) (k : ℕ) :
    (run Channels.next s w (k + 3)).dac =
      ⟨(run Channels.next s w k).adc.adcDatA, (run Channels.next s w k).adc.adcDatB⟩ := by
  simp only [run_succ, Channels.next, Dac.next, Adc.next, negative_slope_negative_slope wide]

end Codes

/-- Both conversions are affine with slope minus one on the whole range of the converters, so they
reverse the order without wrapping at a rail, and after both of them every code of either channel is
the one that was read. -/
theorem converters_inverse (n : ℕ) (wide : 2 ≤ n) (p : ℕ) :
    (∀ (adc : AdcPorts p) (s : Adc n),
        (s.next adc).in1.toInt = 2 ^ (n - 1) - 1 - s.adcDatA.toNat ∧
        (s.next adc).in2.toInt = 2 ^ (n - 1) - 1 - s.adcDatB.toNat) ∧
      (∀ (out : DacInput n) (s : Dac n),
        ((s.next out).dacDatA.toNat : ℤ) = 2 ^ (n - 1) - 1 - out.out1.toInt ∧
        ((s.next out).dacDatB.toNat : ℤ) = 2 ^ (n - 1) - 1 - out.out2.toInt) ∧
      (∀ c d : BitVec n, c.toNat < d.toNat ↔ (negativeSlope d).toInt < (negativeSlope c).toInt) ∧
      (∀ s t : BitVec n, s.toInt < t.toInt ↔ (negativeSlope t).toNat < (negativeSlope s).toNat) ∧
      ∀ (s : Channels n) (w : ℕ → AdcPorts p) (k : ℕ),
        (run Channels.next s w (k + 4)).dac = ⟨code n (w k).dataA, code n (w k).dataB⟩ := by
  refine ⟨?_, ?_, ?_, ?_, ?_⟩
  · intro adc s
    exact ⟨to_int_negative_slope wide s.adcDatA, to_int_negative_slope wide s.adcDatB⟩
  · intro out s
    exact ⟨to_nat_negative_slope wide out.out1, to_nat_negative_slope wide out.out2⟩
  · intro c d
    exact (to_int_lt_iff wide c d).symm
  · intro s t
    exact (to_nat_lt_iff wide s t).symm
  · intro s w k
    have later : k + 4 = k + 1 + 3 := by omega
    rw [later, channels_delay wide s w (k + 1), run_succ]
    rfl

theorem converters_inverse_board :
    (∀ s : Adc 14, (s.next (p := 16) ⟨0, 0⟩).in1.toInt = 8191 - s.adcDatA.toNat) ∧
      (negativeSlope (0 : BitVec 14)).toInt = 8191 ∧
      (negativeSlope (0x1fff : BitVec 14)).toInt = 0 ∧
      (negativeSlope (0x2000 : BitVec 14)).toInt = -1 ∧
      (negativeSlope (0x3fff : BitVec 14)).toInt = -8192 := by
  refine ⟨?_, by decide, by decide, by decide, by decide⟩
  intro s
  exact ((converters_inverse 14 (by decide) 16).1 ⟨0, 0⟩ s).1

end Pypga.Modules.Converters
