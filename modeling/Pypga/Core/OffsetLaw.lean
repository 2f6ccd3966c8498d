/- GID: Pypga/Core/OffsetLaw
   generality: G
   digest: The FPGA value of a number register is its Python value plus the offset while the sign stays. -/

import Mathlib.Tactic.Ring
import Pypga.Core.WordEncoding
import Pypga.Foundation.LittleEndian

set_option autoImplicit false
set_option relaxedAutoImplicit false

namespace Pypga.Core.OffsetLaw

open Pypga.Foundation.FixedWidth
open Pypga.Foundation.LittleEndian (Word)
open Pypga.Core.Registers
open Pypga.Core.WordEncoding

/-- An array of `uint32` keeps an integer that fits. Another one it refuses, or takes modulo
`2 ^ 32`, as the older versions of numpy do. -/
structure Converts (uint32 : ℤ → Option Word) : Prop where
  fits : ∀ x, 0 ≤ x → x < 2 ^ 32 → uint32 x = some (BitVec.ofInt 32 x)
  other : ∀ x word, uint32 x = some word → word = BitVec.ofInt 32 x

structure InRange (r : NumberRegister) (v : ℤ) : Prop where
  above : r.intMin ≤ v
  below : v ≤ r.intMax

/-- The limits leave the value alone. -/
structure InLimits (r : NumberRegister) (v : ℤ) : Prop where
  above : ∀ least ∈ r.min, least ≤ (v : ℚ)
  below : ∀ most ∈ r.max, (v : ℚ) ≤ most

def assign (uint32 : ℤ → Option Word) (r : NumberRegister) (value : ℚ) : Option ℕ :=
  (uint32 (r.fromPython (r.beforeFromPython value))).map fun word => trunc r.width word.toNat

/-- After its assignment the signal is the value plus the offset, and the value is read back. -/
def FollowsOffset (uint32 : ℤ → Option Word) (r : NumberRegister) (v : ℤ) : Prop :=
  ∃ storage, assign uint32 r v = some storage ∧ r.signal storage = v + r.offsetFromPython ∧
    r.toPython storage = v

/-- A signed register keeps the sign, or the offset takes a negative value to zero and the array
takes the word `1 << width` for zero. -/
def KeepsSign (uint32 : ℤ → Option Word) (r : NumberRegister) (v : ℤ) : Prop :=
  r.signed = true →
    (v < 0 ↔ v + r.offsetFromPython < 0) ∨
      v < 0 ∧ v + r.offsetFromPython = 0 ∧ (r.width < 32 ∨ (uint32 (2 ^ 32)).isSome = true)

def decoded (r : NumberRegister) (x : ℤ) : ℤ :=
  if r.signed = true ∧ 2 ^ (r.width - 1) ≤ x then x - 2 ^ r.width else x

def complement (r : NumberRegister) (x : ℤ) : ℤ := if x < 0 then x + 2 ^ r.width else x

section Assignments

variable {r : NumberRegister} {v : ℤ}

private theorem limits_keep (within : InLimits r v) : r.beforeFromPython v = v := by
  rw [before_from_python_eq, limits]
  have lower : max (v : ℚ) (r.min.getD v) = v := by
    apply max_eq_left
    cases least : r.min with
    | none => exact le_rfl
    | some m => exact within.above m least
  have upper : (r.max.filter fun most => most < (v : ℚ)) = none := by
    apply Option.filter_eq_none_iff.mpr
    intro most is
    simpa using within.below most is
  rw [lower, upper, Option.getD_none]

theorem ranged_keep (inside : InRange r v) : ranged r v = v := by
  have above : (r.intMin : ℚ) ≤ v := by exact_mod_cast inside.above
  have below : (v : ℚ) ≤ r.intMax := by exact_mod_cast inside.below
  rw [ranged, min_eq_right below, max_eq_right above]

/-- The two's complement of the value comes before the offset, and the clamp after it. -/
theorem word_of_range (inside : InRange r v) :
    r.fromPython v = max 0 (min (2 ^ r.width) (complement r v + r.offsetFromPython)) := by
  rw [number_from_python_eq, ranged_keep inside, Register.fromPython]
  have unsigned : r.signed = false → 0 ≤ v := by
    intro signed
    have above := inside.above
    rwa [NumberRegister.intMin, signed, if_neg Bool.false_ne_true] at above
  have integer : (if r.signed = true ∧ (v : ℚ) < 0 then (v : ℚ) + 2 ^ r.width else v) =
      (complement r v : ℤ) := by
    rw [complement]
    simp only [Int.cast_lt_zero]
    cases signed : r.signed with
    | false => rw [if_neg (by simp), if_neg (not_lt.mpr (unsigned signed))]
    | true =>
      simp only [true_and]
      split_ifs <;> push_cast <;> rfl
  have positive : (0 : ℤ) < 2 ^ r.width := by positivity
  rw [integer, py_int_cast]
  generalize complement r v + r.offsetFromPython = raw
  split_ifs <;> omega

theorem word_eq (inside : InRange r v) (within : InLimits r v) :
    r.fromPython (r.beforeFromPython v) =
      max 0 (min (2 ^ r.width) (complement r v + r.offsetFromPython)) := by
  rw [limits_keep within, word_of_range inside]

private theorem signed_of_cross (inside : InRange r v) (target : InRange r (v + r.offsetFromPython))
    (cross : ¬ (v < 0 ↔ v + r.offsetFromPython < 0)) : r.signed = true := by
  by_contra unsigned
  have first := inside.above
  have second := target.above
  rw [NumberRegister.intMin, if_neg unsigned] at first second
  omega

end Assignments

section Storages

variable {r : NumberRegister}

theorem signal_eq (storage : ℕ) : r.signal storage = decoded r storage := by
  have cast : 2 ^ (r.width - 1) ≤ storage ↔ (2 : ℤ) ^ (r.width - 1) ≤ storage := by
    exact_mod_cast Iff.rfl
  simp only [NumberRegister.signal, decoded, cast]

theorem to_python_eq (own : r.signed = true → r.readWidth = r.width) (value : ℤ) :
    r.toPython value = decoded r (value - r.offsetFromPython) := by
  unfold NumberRegister.toPython decoded Register.toPython
  cases signed : r.signed with
  | false => rfl
  | true =>
    rw [own signed]

theorem read_width_of_held (held : r.ramOffset = none) : r.readWidth = r.width := by
  simp [NumberRegister.readWidth, held]

private theorem in_range_cases {x : ℤ} (inside : InRange r x) :
    (r.signed = false ∧ 0 ≤ x ∧ x < 2 ^ r.width) ∨
      (r.signed = true ∧ -2 ^ (r.width - 1) ≤ x ∧ x < 2 ^ (r.width - 1)) := by
  obtain ⟨above, below⟩ := inside
  unfold NumberRegister.intMin at above
  unfold NumberRegister.intMax at below
  cases signed : r.signed with
  | false =>
    simp only [signed, Bool.false_eq_true, if_false] at above below
    exact .inl ⟨rfl, above, by omega⟩
  | true =>
    simp only [signed, if_true] at above below
    exact .inr ⟨rfl, above, by omega⟩

variable (nonempty : 1 ≤ r.width)
include nonempty

theorem whole_range : (2 : ℤ) ^ r.width = 2 * 2 ^ (r.width - 1) ∧ (0 : ℤ) < 2 ^ (r.width - 1) := by
  rw [← pow_succ', Nat.sub_add_cancel nonempty]
  exact ⟨rfl, by positivity⟩

theorem decoded_complement {x : ℤ} (inside : InRange r x) : decoded r (complement r x) = x := by
  have range := whole_range nonempty
  unfold decoded complement
  rcases in_range_cases inside with ⟨signed, above, below⟩ | ⟨signed, above, below⟩
  · simp only [signed, Bool.false_eq_true, false_and, if_false]
    rw [if_neg (by omega)]
  · simp only [signed, true_and]
    split_ifs <;> omega

private theorem trunc_of_range {x : ℤ} (inside : InRange r x) :
    (trunc r.width x : ℤ) = complement r x := by
  have range := whole_range nonempty
  obtain ⟨least, most⟩ : -2 ^ r.width ≤ x ∧ x < 2 ^ r.width := by
    rcases in_range_cases inside with ⟨-, above, below⟩ | ⟨-, above, below⟩
    · exact ⟨by omega, below⟩
    · exact ⟨by omega, by omega⟩
  rw [complement]
  split_ifs with negative
  · exact trunc_of_neg least negative
  · exact trunc_of_nonneg (by omega) most

theorem complement_lt {x : ℤ} (inside : InRange r x) :
    0 ≤ complement r x ∧ complement r x < 2 ^ r.width := by
  rw [← trunc_of_range nonempty inside]
  exact ⟨Int.natCast_nonneg _, by exact_mod_cast trunc_lt r.width x⟩

end Storages

section Law

variable {uint32 : ℤ → Option Word} (converts : Converts uint32)
variable {r : NumberRegister} {v : ℤ} (narrow : r.width ≤ 32) (held : r.ramOffset = none)
include converts narrow held

private theorem follows_iff {x : ℤ} (word : r.fromPython (r.beforeFromPython v) = x) :
    FollowsOffset uint32 r v ↔ (uint32 x).isSome = true ∧
      decoded r (trunc r.width x) = v + r.offsetFromPython ∧
        decoded r (trunc r.width x - r.offsetFromPython) = v := by
  have low : trunc r.width (BitVec.ofInt 32 x).toNat = trunc r.width x := by
    rw [BitVec.toNat_ofInt]
    exact trunc_trunc narrow x
  unfold FollowsOffset assign
  rw [word]
  constructor
  · rintro ⟨storage, stored, signal, read⟩
    obtain ⟨w, taken, rfl⟩ := Option.map_eq_some_iff.mp stored
    rw [converts.other x w taken, low] at signal read
    rw [signal_eq] at signal
    rw [to_python_eq fun _ => read_width_of_held held] at read
    exact ⟨Option.isSome_of_eq_some taken, signal, read⟩
  · rintro ⟨some, signal, read⟩
    obtain ⟨w, taken⟩ := Option.isSome_iff_exists.mp some
    have is := converts.other x w taken
    refine ⟨trunc r.width x, ?_, ?_, ?_⟩
    · rw [taken, Option.map_some, is, low]
    · rw [signal_eq, signal]
    · rw [to_python_eq fun _ => read_width_of_held held, read]

variable (nonempty : 1 ≤ r.width) (inside : InRange r v)
include nonempty inside

private theorem follows_saturated_iff {x : ℤ} (word : r.fromPython (r.beforeFromPython v) = x)
    (zero : trunc r.width x = 0) :
    FollowsOffset uint32 r v ↔ (uint32 x).isSome = true ∧ v + r.offsetFromPython = 0 := by
  have range := whole_range nonempty
  have signal : decoded r 0 = 0 := if_neg fun negative => absurd negative.2 (by omega)
  have read : decoded r v = v := by
    refine if_neg fun negative => ?_
    rcases in_range_cases inside with ⟨unsigned, -, -⟩ | ⟨-, -, below⟩
    · rw [unsigned] at negative
      cases negative.1
    · omega
  rw [follows_iff converts narrow held word, zero, Nat.cast_zero, signal, zero_sub]
  constructor
  · rintro ⟨taken, moved, -⟩
    exact ⟨taken, moved.symm⟩
  · rintro ⟨taken, moved⟩
    have back : -r.offsetFromPython = v := by omega
    rw [back]
    exact ⟨taken, moved.symm, read⟩

variable (within : InLimits r v)
include within

private theorem follows_of_sign (target : InRange r (v + r.offsetFromPython))
    (sign : v < 0 ↔ v + r.offsetFromPython < 0) : FollowsOffset uint32 r v := by
  have moved : complement r v + r.offsetFromPython = complement r (v + r.offsetFromPython) := by
    unfold complement
    split_ifs <;> omega
  obtain ⟨nonneg, small⟩ := complement_lt nonempty target
  have word : r.fromPython (r.beforeFromPython v) = complement r (v + r.offsetFromPython) := by
    rw [word_eq inside within, moved]
    omega
  have le : (2 : ℤ) ^ r.width ≤ 2 ^ 32 := pow_le_pow_right₀ (by omega) narrow
  have stored : (trunc r.width (complement r (v + r.offsetFromPython)) : ℤ) =
      complement r (v + r.offsetFromPython) := trunc_of_nonneg nonneg small
  apply (follows_iff converts narrow held word).mpr
  rw [stored, converts.fits _ nonneg (by omega)]
  refine ⟨rfl, decoded_complement nonempty target, ?_⟩
  rw [← moved, Int.add_sub_cancel, decoded_complement nonempty inside]

/-- The offset law holds exactly for the assignments that keep the sign, and for those of a
negative value whose FPGA value is zero. -/
theorem offset_law_iff (target : InRange r (v + r.offsetFromPython)) :
    FollowsOffset uint32 r v ↔ KeepsSign uint32 r v := by
  by_cases sign : v < 0 ↔ v + r.offsetFromPython < 0
  · exact iff_of_true (follows_of_sign converts narrow held nonempty inside within target sign)
      fun _ => .inl sign
  have signed : r.signed = true := signed_of_cross inside target sign
  rw [KeepsSign]
  simp only [signed, sign, false_or, true_implies]
  have word := word_eq inside within
  have power : (0 : ℤ) < 2 ^ r.width := by positivity
  rcases lt_or_ge v 0 with negative | nonneg
  · have full : r.fromPython (r.beforeFromPython v) = 2 ^ r.width := by
      rw [word, complement, if_pos negative]
      omega
    have zero : trunc r.width (2 ^ r.width) = 0 := by
      rw [trunc, Int.emod_self]
      rfl
    rw [follows_saturated_iff converts narrow held nonempty inside full zero]
    have taken : (uint32 (2 ^ r.width)).isSome = true ↔
        r.width < 32 ∨ (uint32 (2 ^ 32)).isSome = true := by
      rcases Nat.lt_or_eq_of_le narrow with small | whole
      · have fits : (2 : ℤ) ^ r.width < 2 ^ 32 := pow_lt_pow_right₀ (by omega) small
        rw [converts.fits _ power.le fits]
        simp [small]
      · simp [whole]
    rw [taken]
    tauto
  · have empty : r.fromPython (r.beforeFromPython v) = 0 := by
      rw [word, complement, if_neg (by omega)]
      omega
    rw [follows_saturated_iff converts narrow held nonempty inside empty (by simp [trunc])]
    constructor
    · rintro ⟨-, zero⟩
      exact absurd zero (by omega)
    · rintro ⟨negative, -⟩
      omega

end Law

def wrapping (x : ℤ) : Option Word := some (BitVec.ofInt 32 x)

theorem wrapping_converts : Converts wrapping := by
  refine ⟨fun _ _ _ => rfl, ?_⟩
  intro x word taken
  exact (Option.some.inj taken).symm

theorem offset_law_period :
    FollowsOffset wrapping { width := 32, offsetFromPython := -2, min := some 2 } 10 ↔
      KeepsSign wrapping { width := 32, offsetFromPython := -2, min := some 2 } 10 := by
  refine offset_law_iff wrapping_converts (by decide) rfl (by decide) ⟨by decide, by decide⟩ ⟨?_, ?_⟩
    ⟨by decide, by decide⟩
  · intro least is
    obtain rfl := Option.some.inj is
    norm_num
  · intro most is
    cases is

/-- A length of zero samples, with the offset of the length: the FPGA value is not minus one. -/
theorem offset_law_counterexample :
    InRange { width := 32, offsetFromPython := -1 } 0 ∧
      InRange { width := 32, offsetFromPython := -1 } (0 + -1) ∧
        InLimits { width := 32, offsetFromPython := -1 } 0 ∧
          ¬ FollowsOffset wrapping { width := 32, offsetFromPython := -1 } 0 := by
  have inside : InRange { width := 32, offsetFromPython := -1 } 0 := ⟨by decide, by decide⟩
  have within : InLimits { width := 32, offsetFromPython := -1 } 0 := by
    constructor <;> intro limit is <;> cases is
  refine ⟨inside, ⟨by decide, by decide⟩, within, ?_⟩
  intro follows
  have word := word_eq inside within
  have moved := (follows_saturated_iff wrapping_converts (by decide) rfl (by decide) inside
    word (by decide)).mp follows
  exact absurd moved.2 (by decide)

end Pypga.Core.OffsetLaw
