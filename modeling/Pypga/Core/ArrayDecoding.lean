/- GID: Pypga/Core/ArrayDecoding
   generality: G
   digest: The decoding of a whole array against that of its words one by one. -/

import Pypga.Core.Quantisation

set_option autoImplicit false
set_option relaxedAutoImplicit false

namespace Pypga.Core.ArrayDecoding

open Pypga.Core.Registers

/-- `_to_python_array` of a plain register: a list of the single values. -/
def Register.toPythonArray (r : Register) (value : List ℤ) : List ℤ := value.map r.toPython

/-- `_to_python_array` of a number: operations on the whole array, and on the part of it selected by
a mask. -/
def NumberRegister.toPythonArray (r : NumberRegister) (value : List ℤ) : List ℚ :=
  let value : List ℚ := value.map fun v : ℤ => (v : ℚ)
  let value : List ℚ := value.map fun v => v - r.offsetFromPython
  if r.signed then
    value.map fun v => if 2 ^ (r.readWidth - 1) ≤ v then v - 2 ^ r.readWidth else v
  else value

def FixedPointRegister.toPythonArray (r : FixedPointRegister) (value : List ℤ) : List Quotient :=
  let value := NumberRegister.toPythonArray r.toNumberRegister value
  value.map fun v => divide v (2 ^ r.decimals - 1)

section Numbers

variable (r : NumberRegister) (words : List ℤ)

private theorem number_array_each : NumberRegister.toPythonArray r words = words.map fun v : ℤ =>
    let value : ℚ := (v : ℚ) - r.offsetFromPython
    if r.signed ∧ 2 ^ (r.readWidth - 1) ≤ value then value - 2 ^ r.readWidth else value := by
  unfold NumberRegister.toPythonArray
  cases signed : r.signed with
  | false => simp
  | true => simp

theorem number_array_eq :
    NumberRegister.toPythonArray r words = words.map fun raw => (r.toPython raw : ℚ) := by
  rw [number_array_each]
  apply List.map_congr_left
  intro v _
  have shifted : (v : ℚ) - r.offsetFromPython = (r.toRegister.toPython v : ℚ) := by
    rw [Register.toPython]
    push_cast
    rfl
  have same : 2 ^ (r.readWidth - 1) ≤ (r.toRegister.toPython v : ℚ) ↔
      2 ^ (r.readWidth - 1) ≤ r.toRegister.toPython v := by exact_mod_cast Iff.rfl
  simp only [shifted, same, NumberRegister.toPython]
  split
  · push_cast
    rfl
  · rfl

end Numbers

section FixedPoints

variable (r : FixedPointRegister)

def Agree (words : List ℤ) : Prop :=
  ∃ values : List ℚ, words.map r.toPython = values.map some ∧
    FixedPointRegister.toPythonArray r words = values.map .finite

variable {r} in
private theorem agree_of_decimals (scaled : 1 ≤ r.decimals) (words : List ℤ) : Agree r words := by
  have nonzero : (2 : ℚ) ^ r.decimals - 1 ≠ 0 := (Quantisation.scale_pos scaled).ne'
  refine ⟨words.map fun raw => r.toNumberRegister.toPython raw / (2 ^ r.decimals - 1), ?_, ?_⟩
  · rw [List.map_map]
    apply List.map_congr_left
    intro raw _
    exact if_neg nonzero
  · rw [FixedPointRegister.toPythonArray, number_array_eq, List.map_map, List.map_map]
    apply List.map_congr_left
    intro raw _
    exact if_neg nonzero

variable {r} in
private theorem not_agree_of_decimals (unscaled : r.decimals = 0) (raw : ℤ) (words : List ℤ) :
    ¬ Agree r (raw :: words) := by
  rintro ⟨values, single, -⟩
  have raises : r.toPython raw = none := by
    rw [FixedPointRegister.toPython, unscaled, pow_zero, sub_self, if_pos rfl]
  cases values with
  | nil => cases single
  | cons value values =>
    have first := List.head_eq_of_cons_eq single
    rw [raises] at first
    cases first

end FixedPoints

/-- An array of numbers is always decoded like its words; one of fixed point numbers exactly if there
are decimals, or no words. -/
theorem array_decoding_iff (n : NumberRegister) (r : FixedPointRegister) (words : List ℤ) :
    (NumberRegister.toPythonArray n words = words.map fun raw => (n.toPython raw : ℚ)) ∧
      (Agree r words ↔ 1 ≤ r.decimals ∨ words = []) := by
  refine ⟨number_array_eq n words, ?_⟩
  constructor
  · intro agree
    cases words with
    | nil => exact .inr rfl
    | cons raw words =>
      left
      by_contra none
      exact not_agree_of_decimals (Nat.lt_one_iff.mp (Nat.not_le.mp none)) raw words agree
  · rintro (scaled | rfl)
    · exact agree_of_decimals scaled words
    · exact ⟨[], rfl, by simp [FixedPointRegister.toPythonArray, number_array_eq]⟩

/-- The words zero and one of a register that leaves the decimals at their default: each raises on
its own, together they are not a number and infinite. -/
theorem array_decoding_counterexample :
    let r : FixedPointRegister := { width := 16 }
    [0, 1].map r.toPython = [none, none] ∧
      FixedPointRegister.toPythonArray r [0, 1] = [.nan, .infinite false] ∧ ¬ Agree r [0, 1] := by
  refine ⟨by decide +kernel, by decide +kernel, ?_⟩
  rintro ⟨values, -, together⟩
  have first : FixedPointRegister.toPythonArray { width := 16 } [0, 1] = [.nan, .infinite false] := by
    decide +kernel
  rw [first] at together
  cases values with
  | nil => cases together
  | cons value values => cases together

end Pypga.Core.ArrayDecoding
