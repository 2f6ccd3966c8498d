/- GID: Pypga/Foundation/Accumulation
   generality: G
   digest: Registers that add up a waveform, modulo their range and exactly. -/

import Mathlib.Algebra.BigOperators.Intervals
import Mathlib.Algebra.BigOperators.Ring.Finset
import Mathlib.Algebra.Order.BigOperators.Group.Finset
import Mathlib.Data.Int.ModEq
import Mathlib.Tactic.Linarith

set_option autoImplicit false
set_option relaxedAutoImplicit false

namespace Pypga.Foundation.Accumulation

/-- What a waveform adds up to in the cycles `u ≤ k < v`. -/
def total (f : ℕ → ℤ) (u v : ℕ) : ℤ := (Finset.Ico u v).sum f

section Totals

variable {f : ℕ → ℤ} {u v : ℕ}

@[simp] theorem total_self (f : ℕ → ℤ) (u : ℕ) : total f u u = 0 := by
  rw [total, Finset.Ico_self, Finset.sum_empty]

private theorem total_succ (f : ℕ → ℤ) (after : u ≤ v) : total f u (v + 1) = total f u v + f v :=
  Finset.sum_Ico_succ_top after f

theorem total_mul (c : ℤ) (f : ℕ → ℤ) (u v : ℕ) : total (fun k => c * f k) u v = c * total f u v :=
  (Finset.mul_sum _ _ _).symm

private theorem total_const (c : ℤ) (u v : ℕ) : total (fun _ => c) u v = (v - u : ℕ) * c := by
  rw [total, Finset.sum_const, Nat.card_Ico, nsmul_eq_mul]

theorem total_events (P : ℕ → Prop) [DecidablePred P] (u v : ℕ) :
    total (fun k => if P k then 1 else 0) u v = ((Finset.Ico u v).filter P).card := by
  rw [total, Finset.sum_boole]

theorem total_le {b : ℤ} (each : ∀ k, u ≤ k → k < v → f k ≤ b) : total f u v ≤ (v - u : ℕ) * b := by
  have bound : (Finset.Ico u v).sum f ≤ (Finset.Ico u v).card • b := by
    apply Finset.sum_le_card_nsmul
    intro k inside
    obtain ⟨later, earlier⟩ := Finset.mem_Ico.mp inside
    exact each k later earlier
  rw [Nat.card_Ico, nsmul_eq_mul] at bound
  exact bound

theorem le_total {b : ℤ} (each : ∀ k, u ≤ k → k < v → b ≤ f k) : (v - u : ℕ) * b ≤ total f u v := by
  have bound : (Finset.Ico u v).card • b ≤ (Finset.Ico u v).sum f := by
    apply Finset.card_nsmul_le_sum
    intro k inside
    obtain ⟨later, earlier⟩ := Finset.mem_Ico.mp inside
    exact each k later earlier
  rw [Nat.card_Ico, nsmul_eq_mul] at bound
  exact bound

theorem exists_total {lo hi S : ℤ} (n : ℕ) (least : n * lo ≤ S) (most : S ≤ n * hi) (range : lo ≤ hi) :
    ∃ g : ℕ → ℤ, (∀ k, lo ≤ g k ∧ g k ≤ hi) ∧ total g u (u + n) = S := by
  obtain rfl | positive := Nat.eq_zero_or_pos n
  · refine ⟨fun _ => lo, fun _ => ⟨le_rfl, range⟩, ?_⟩
    rw [Nat.add_zero, total_self]
    omega
  have divisor : (0 : ℤ) < n := by exact_mod_cast positive
  have split := Int.emod_add_mul_ediv S n
  have rest := Int.emod_nonneg S divisor.ne'
  have short := Int.emod_lt_of_pos S divisor
  obtain ⟨j, is⟩ := Int.eq_ofNat_of_zero_le rest
  -- the quotient everywhere, and one more as often as the rest says
  refine ⟨fun k => S / n + if u ≤ k ∧ k < u + j then 1 else 0, fun k => ?_, ?_⟩
  · have low : lo ≤ S / n := (Int.le_ediv_iff_mul_le divisor).mpr (by rwa [mul_comm])
    have high : S / n ≤ hi := Int.ediv_le_of_le_mul divisor (by rwa [mul_comm])
    have higher : j ≠ 0 → S / n < hi := by
      intro some_rest
      apply lt_of_mul_lt_mul_left _ divisor.le
      omega
    dsimp only
    split_ifs with one
    · have below := higher (by omega)
      omega
    · omega
  · have ones : (Finset.Ico u (u + n)).filter (fun k => u ≤ k ∧ k < u + j) = Finset.Ico u (u + j) := by
      ext k
      simp only [Finset.mem_filter, Finset.mem_Ico]
      omega
    have quotients := total_const (S / n) u (u + n)
    have rests := total_events (fun k => u ≤ k ∧ k < u + j) u (u + n)
    rw [ones, Nat.card_Ico, Nat.add_sub_cancel_left] at rests
    rw [Nat.add_sub_cancel_left] at quotients
    calc total (fun k => S / n + if u ≤ k ∧ k < u + j then 1 else 0) u (u + n)
        = total (fun _ => S / n) u (u + n) + total (fun k => if u ≤ k ∧ k < u + j then 1 else 0) u (u + n) :=
          Finset.sum_add_distrib
      _ = n * (S / n) + j := by rw [quotients, rests]
      _ = S := by omega

end Totals

section Words

variable {n : ℕ} {x y : ℤ}

theorem to_int_range (v : BitVec n) : -2 ^ n ≤ 2 * v.toInt ∧ 2 * v.toInt < 2 ^ n :=
  ⟨BitVec.le_two_mul_toInt, BitVec.two_mul_toInt_lt⟩

theorem to_int_of_fits (least : -2 ^ n ≤ 2 * x) (most : 2 * x < 2 ^ n) :
    (BitVec.ofInt n x).toInt = x := by
  rw [BitVec.toInt_ofInt]
  apply Int.bmod_eq_of_le_mul_two
  · push_cast
    linarith
  · push_cast
    linarith

theorem to_nat_of_fits (least : 0 ≤ x) (most : x < 2 ^ n) : ((BitVec.ofInt n x).toNat : ℤ) = x := by
  rw [BitVec.toNat_ofInt]
  push_cast
  rw [Int.emod_eq_of_lt least most]
  exact Int.toNat_of_nonneg least

theorem to_int_mod (n : ℕ) (x : ℤ) : (BitVec.ofInt n x).toInt ≡ x [ZMOD 2 ^ n] := by
  have cast : ((2 ^ n : ℕ) : ℤ) = 2 ^ n := by push_cast; rfl
  rw [BitVec.toInt_ofInt, Int.ModEq, ← cast, Int.bmod_emod]

theorem set_width_of_int {m : ℕ} (narrow : m ≤ n) (x : ℤ) :
    (BitVec.ofInt n x).setWidth m = BitVec.ofInt m x := by
  apply BitVec.eq_of_toInt_eq
  rw [BitVec.toInt_setWidth, BitVec.toInt_ofInt, BitVec.toNat_ofInt]
  have positive : (0 : ℤ) < 2 ^ n := by positivity
  have nonneg : 0 ≤ x % ((2 ^ n : ℕ) : ℤ) := by
    push_cast
    exact Int.emod_nonneg x positive.ne'
  rw [Int.toNat_of_nonneg nonneg]
  have divides : ((2 ^ m : ℕ) : ℤ) ∣ ((2 ^ n : ℕ) : ℤ) := by exact_mod_cast pow_dvd_pow 2 narrow
  rw [← Int.emod_bmod, Int.emod_emod_of_dvd x divides, Int.emod_bmod]

theorem eq_of_mod {a b : ℤ} (least : -2 ^ n ≤ 2 * a ∧ -2 ^ n ≤ 2 * b)
    (most : 2 * a < 2 ^ n ∧ 2 * b < 2 ^ n) (same : a ≡ b [ZMOD 2 ^ n]) : a = b := by
  have words : BitVec.ofInt n a = BitVec.ofInt n b := by
    have cast : ((2 ^ n : ℕ) : ℤ) = 2 ^ n := by push_cast; rfl
    apply BitVec.eq_of_toInt_eq
    rw [BitVec.toInt_ofInt, BitVec.toInt_ofInt, ← Int.emod_bmod a, ← Int.emod_bmod b, cast, same.eq]
  rw [← to_int_of_fits least.1 most.1, words, to_int_of_fits least.2 most.2]

end Words

section Registers

variable {n : ℕ} (reg : ℕ → BitVec n) {f : ℕ → ℤ} {u v : ℕ}

theorem total_of_add {x : ℤ} (after : u ≤ v) (start : reg u = BitVec.ofInt n x)
    (add : ∀ k, u ≤ k → k < v → reg (k + 1) = reg k + BitVec.ofInt n (f k)) :
    reg v = BitVec.ofInt n (x + total f u v) := by
  obtain ⟨m, rfl⟩ := Nat.exists_eq_add_of_le after
  induction m with
  | zero => rw [Nat.add_zero, total_self, add_zero, start]
  | succ m ih =>
    have so_far := ih (by omega) fun k later earlier => add k later (by omega)
    rw [← Nat.add_assoc, add (u + m) (by omega) (by omega), so_far, ← BitVec.ofInt_add,
      total_succ f (by omega), add_assoc]

theorem total_of_load (before : u < v) (load : reg (u + 1) = BitVec.ofInt n (f u))
    (add : ∀ k, u < k → k < v → reg (k + 1) = reg k + BitVec.ofInt n (f k)) :
    reg v = BitVec.ofInt n (total f u v) := by
  have first : total f u v = f u + total f (u + 1) v := Finset.sum_eq_sum_Ico_succ_bot before f
  rw [first]
  exact total_of_add reg before load fun k later earlier => add k later earlier

end Registers

end Pypga.Foundation.Accumulation
