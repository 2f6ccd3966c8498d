/- GID: Pypga/Foundation/Rounding
   generality: G
   digest: Rounding to the nearest integer with ties to even, and saturation to a range of integers. -/

import Mathlib.Algebra.Order.Floor.Ring
import Mathlib.Tactic.Linarith

set_option autoImplicit false
set_option relaxedAutoImplicit false

namespace Pypga.Foundation.Rounding

variable {K : Type*} [Field K] [LinearOrder K] [IsStrictOrderedRing K] [FloorRing K]

/-- The nearest integer; of two nearest ones the even one. -/
def halfEven (x : K) : ℤ :=
  if x - ⌊x⌋ < 1 / 2 then ⌊x⌋
  else if 1 / 2 < x - ⌊x⌋ then ⌊x⌋ + 1
  else if ⌊x⌋ % 2 = 0 then ⌊x⌋ else ⌊x⌋ + 1

theorem half_even_intCast (k : ℤ) : halfEven (k : K) = k := by
  have whole : (k : K) - k < 1 / 2 := by
    rw [sub_self]
    exact one_half_pos
  rw [halfEven, Int.floor_intCast, if_pos whole]

theorem half_even_error (x : K) : |(halfEven x : K) - x| ≤ 1 / 2 := by
  have below := Int.floor_le x
  have above := Int.lt_floor_add_one x
  apply abs_le.mpr
  unfold halfEven
  split_ifs with low high even
  · constructor <;> linarith
  · push_cast
    constructor <;> linarith
  · constructor <;> linarith
  · push_cast
    constructor <;> linarith

theorem half_even_mono {x y : K} (le : x ≤ y) : halfEven x ≤ halfEven y := by
  by_contra crossed
  have above : halfEven y + 1 ≤ halfEven x := by omega
  have apart : (halfEven y : K) + 1 ≤ halfEven x := by exact_mod_cast above
  have first := abs_le.mp (half_even_error x)
  have second := abs_le.mp (half_even_error y)
  -- both are halfway between the two integers, and so the same
  have same : x = y := by linarith
  exact crossed (le_of_eq (congrArg halfEven same))

def saturate (lo hi k : ℤ) : ℤ := max lo (min hi k)

variable {lo hi k : ℤ}

theorem saturate_of_mem (above : lo ≤ k) (below : k ≤ hi) : saturate lo hi k = k := by
  rw [saturate, min_eq_right below, max_eq_right above]

theorem saturate_mem (range : lo ≤ hi) : lo ≤ saturate lo hi k ∧ saturate lo hi k ≤ hi :=
  ⟨le_max_left _ _, max_le range (min_le_left _ _)⟩

theorem saturate_mono {j : ℤ} (le : j ≤ k) : saturate lo hi j ≤ saturate lo hi k :=
  max_le_max le_rfl (min_le_min le_rfl le)

theorem saturate_nearest {x : K} (error : |(k : K) - x| ≤ 1 / 2) {j : ℤ} (above : lo ≤ j)
    (below : j ≤ hi) : |(saturate lo hi k : K) - x| ≤ |(j : K) - x| := by
  obtain ⟨left, right⟩ := abs_le.mp error
  have cast : ∀ {m n : ℤ}, m ≤ n → (m : K) ≤ n := fun le => by exact_mod_cast le
  rcases lt_or_ge k lo with under | over_lo
  · have value : saturate lo hi k = lo := by
      rw [saturate, min_eq_right (by omega), max_eq_left under.le]
    have gap : (k : K) + 1 ≤ lo := by exact_mod_cast under
    have beyond := cast above
    rw [value, abs_of_nonneg (by linarith), abs_of_nonneg (by linarith)]
    linarith
  · rcases lt_or_ge hi k with over_hi | under
    · have value : saturate lo hi k = hi := by
        rw [saturate, min_eq_left over_hi.le, max_eq_right (by omega)]
      have gap : (hi : K) + 1 ≤ k := by exact_mod_cast over_hi
      have beyond := cast below
      rw [value, abs_of_nonpos (by linarith), abs_of_nonpos (by linarith)]
      linarith
    · rw [saturate_of_mem over_lo under]
      rcases lt_trichotomy j k with less | rfl | greater
      · have gap : (j : K) + 1 ≤ k := by exact_mod_cast less
        rw [abs_sub_comm (j : K), abs_of_nonneg (show (0 : K) ≤ x - j by linarith)]
        exact error.trans (by linarith)
      · exact le_rfl
      · have gap : (k : K) + 1 ≤ j := by exact_mod_cast greater
        rw [abs_of_nonneg (show (0 : K) ≤ (j : K) - x by linarith)]
        exact error.trans (by linarith)

end Pypga.Foundation.Rounding
