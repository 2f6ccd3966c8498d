/- GID: Pypga/Modules/BinContents
   generality: G
   digest: What the accumulators of the DAQ hold within a time bin: sum, extrema, count and edges. -/

import Pypga.Foundation.Accumulation
import Pypga.Modules.SampleReduction
import Pypga.Modules.TimeOrder

set_option autoImplicit false
set_option relaxedAutoImplicit false

namespace Pypga.Modules.BinContents

open Pypga.Foundation.Accumulation
open Pypga.Foundation.PeakHold
open Pypga.Migen.PulseGenerators (BurstGen)
open Pypga.Modules.SampleReduction
open Pypga.Modules.TimeOrder (two twoPowerUp once)

section Numbers

def Fits (signed : Bool) (n : ℕ) (x : ℤ) : Prop :=
  if signed then -2 ^ n ≤ 2 * x ∧ 2 * x < 2 ^ n else 0 ≤ x ∧ x < 2 ^ n

variable {signed : Bool} {n : ℕ}

theorem number_fits (v : BitVec n) : Fits signed n (number signed v) := by
  cases signed with
  | true => exact to_int_range v
  | false =>
    have bound := v.isLt
    refine ⟨Int.natCast_nonneg _, ?_⟩
    show (v.toNat : ℤ) < 2 ^ n
    exact_mod_cast bound

theorem number_of_int {x : ℤ} (fits : Fits signed n x) : number signed (BitVec.ofInt n x) = x := by
  cases signed with
  | true => exact to_int_of_fits fits.1 fits.2
  | false => exact to_nat_of_fits fits.1 fits.2

private theorem resize_eq (m : ℕ) (v : BitVec n) :
    resize signed m v = BitVec.ofInt m (number signed v) := by
  cases signed with
  | true => rfl
  | false =>
    show v.setWidth m = BitVec.ofInt m (v.toNat : ℤ)
    rw [BitVec.ofInt_natCast, BitVec.ofNat_toNat]

private theorem total_fits {f : ℕ → ℤ} (each : ∀ k, Fits signed n (f k)) {m u v : ℕ}
    (short : v - u ≤ 2 ^ m) :
    Fits signed (n + m) (total f u v) := by
  have power : (2 : ℤ) ^ (n + m) = 2 ^ m * 2 ^ n := by rw [pow_add, mul_comm]
  have few : ((v - u : ℕ) : ℤ) ≤ 2 ^ m := by exact_mod_cast short
  have positive : (0 : ℤ) < 2 ^ m := by positivity
  have range : (0 : ℤ) < 2 ^ n := by positivity
  -- as many of the greatest number as there may be still fit
  have high : ((v - u : ℕ) : ℤ) * (2 ^ n - 1) ≤ 2 ^ m * (2 ^ n - 1) :=
    mul_le_mul_of_nonneg_right few (by omega)
  have top : (2 : ℤ) ^ m * (2 ^ n - 1) = 2 ^ m * 2 ^ n - 2 ^ m := by ring
  cases signed with
  | true =>
    have most : total (fun k => 2 * f k) u v ≤ (v - u : ℕ) * (2 ^ n - 1) :=
      total_le fun k _ _ => Int.le_sub_one_of_lt (each k).2
    have least : (v - u : ℕ) * (-2 ^ n) ≤ total (fun k => 2 * f k) u v :=
      le_total fun k _ _ => (each k).1
    have low : (2 : ℤ) ^ m * (-2 ^ n) ≤ (v - u : ℕ) * (-2 ^ n) :=
      mul_le_mul_of_nonpos_right few (by omega)
    have bottom : (2 : ℤ) ^ m * (-2 ^ n) = -(2 ^ m * 2 ^ n) := mul_neg _ _
    rw [total_mul] at most least
    rw [Fits, if_pos rfl, power]
    omega
  | false =>
    have most : total f u v ≤ (v - u : ℕ) * (2 ^ n - 1) :=
      total_le fun k _ _ => Int.le_sub_one_of_lt (each k).2
    have least : (v - u : ℕ) * 0 ≤ total f u v := le_total fun k _ _ => (each k).1
    rw [Fits, if_neg Bool.false_ne_true, power]
    omega

end Numbers

structure Bin (r : ℕ → BurstGen) (p t : ℕ) : Prop where
  pulse : (r p).out = true
  later : p < t
  busy : ∀ k, p ≤ k → k < t → (r k).busy = true
  quiet : ∀ k, p < k → k < t → (r k).out = false

variable {width bits : ℕ} {signed : Bool} {r : ℕ → BurstGen} {i : ℕ → Signals width} {p t : ℕ}

theorem bin_of_checked (pulse : (r p).out = true) (later : p < t)
    (rest : ∀ k < t, p ≤ k → (r k).busy = true ∧ (p < k → (r k).out = false)) : Bin r p t :=
  ⟨pulse, later, fun k after before => (rest k before after).1,
    fun k after before => (rest k before after.le).2 after⟩

section Accumulators

variable (bin : Bin r p t)
include bin

private theorem accumulated {n : ℕ} (reg : Reduction width bits → BitVec n) {f : ℕ → ℤ}
    (load : ∀ (g : BurstGen) (s : Reduction width bits), g.out = true →
      reg (s.next signed (i p) g) = BitVec.ofInt n (f p))
    (add : ∀ k, p < k → k < t → ∀ g : BurstGen, g.out = false → g.busy = true →
      reg ((reduction signed bits r i k).next signed (i k) g) =
        reg (reduction signed bits r i k) + BitVec.ofInt n (f k)) :
    reg (reduction signed bits r i t) = BitVec.ofInt n (total f p t) := by
  apply total_of_load (fun k => reg (reduction signed bits r i k)) bin.later
  · rw [reduction_succ]
    exact load _ _ bin.pulse
  · intro k after before
    rw [reduction_succ]
    exact add k after before _ (bin.quiet k after before) (bin.busy k after.le before)

private theorem sumvalue_eq : (reduction signed bits r i t).sumvalue =
    BitVec.ofInt _ (total (fun k => number signed (i k).input) p t) := by
  apply accumulated bin fun s => s.sumvalue
  · intro g s pulse
    rw [← resize_eq, next_sumvalue, if_pos pulse]
  · intro k _ _ g quiet busy
    rw [← resize_eq, next_sumvalue, if_neg (by simp [quiet]), if_pos busy]

theorem sum_exact (short : t - p ≤ 2 ^ bits) :
    number signed (reduction signed bits r i t).sumvalue =
      total (fun k => number signed (i k).input) p t := by
  rw [sumvalue_eq bin]
  exact number_of_int (total_fits (fun k => number_fits _) short)

private theorem count_eq :
    (reduction signed bits r i t).count = BitVec.ofInt _ (t - p - 1 : ℕ) := by
  have counted : (reduction signed bits r i t).count =
      BitVec.ofInt _ (total (fun k => if p < k then 1 else 0) p t) := by
    apply accumulated bin fun s => s.count
    · intro g s pulse
      rw [if_neg (Nat.lt_irrefl p), next_count, if_pos pulse]
      rfl
    · intro k after _ g quiet busy
      rw [if_pos after, next_count, if_neg (by simp [quiet]), if_pos busy]
      rfl
  have inner : (Finset.Ico p t).filter (fun k => p < k) = Finset.Ioo p t := by
    ext k
    simp only [Finset.mem_filter, Finset.mem_Ico, Finset.mem_Ioo]
    omega
  rw [counted, total_events, inner, Nat.card_Ioo]

end Accumulators

/-- At every cycle of a bin whose length fits: the sum is exact, the extrema are those of the inputs
since the pulse, and the count is one less than their number. -/
theorem bin_contents (bin : Bin r p t) (short : t - p ≤ 2 ^ bits) :
    number signed (reduction signed bits r i t).sumvalue =
        total (fun k => number signed (i k).input) p t ∧
      IsGreatest (seen (fun k => number signed (i k).input) p t)
        (number signed (reduction signed bits r i t).valueMax) ∧
      IsLeast (seen (fun k => number signed (i k).input) p t)
        (number signed (reduction signed bits r i t).valueMin) ∧
      (reduction signed bits r i t).count.toNat = t - p - 1 := by
  have rest : ∀ k, p < k → k < t → (r k).out = false ∧ (r k).busy = true := fun k after before =>
    ⟨bin.quiet k after before, bin.busy k after.le before⟩
  have later := bin.later
  refine ⟨sum_exact bin short, reduction_peak false later bin.pulse rest,
    reduction_peak true later bin.pulse rest, ?_⟩
  rw [count_eq bin, BitVec.ofInt_natCast, BitVec.toNat_ofNat]
  exact Nat.mod_eq_of_lt (by omega)

def dwelling : ℕ → Signals 2 := fun k => ⟨if k < 3 then 1 else 2, 0, 1, 0, 0⟩

private theorem two_bin : Bin ((two none).burst twoPowerUp once) 1 4 :=
  bin_of_checked rfl (by decide) (by decide +kernel)

theorem bin_contents_three :
    number false (reduction false 2 ((two none).burst twoPowerUp once) dwelling 4).sumvalue = 4 ∧
      (reduction false 2 ((two none).burst twoPowerUp once) dwelling 4).count.toNat = 2 := by
  obtain ⟨sum, -, -, count⟩ := @bin_contents 2 2 false _ dwelling 1 4 two_bin (by decide)
  exact ⟨sum.trans (by decide), count⟩

section Edges

def risingEdges (f : ℕ → ℤ) (threshold : ℤ) (p t : ℕ) : Finset ℕ :=
  (Finset.Ioo p t).filter fun u => f (u - 1) ≤ threshold ∧ threshold < f u

def countedEdges (f : ℕ → ℤ) (threshold : ℤ) (p t : ℕ) : Finset ℕ :=
  (Finset.Ioo p t).filter fun u => f (u - 1) < threshold ∧ threshold < f u

variable {f : ℕ → ℤ} {threshold : ℤ}

private theorem counted_subset : countedEdges f threshold p t ⊆ risingEdges f threshold p t :=
  Finset.monotone_filter_right _ fun _ _ edge => ⟨edge.1.le, edge.2⟩

private theorem counted_eq_rising_iff : countedEdges f threshold p t = risingEdges f threshold p t ↔
    ∀ u, p < u → u < t → f (u - 1) = threshold → f u ≤ threshold := by
  constructor
  · intro same u after before level
    by_contra above
    have rising : u ∈ risingEdges f threshold p t :=
      Finset.mem_filter.mpr ⟨Finset.mem_Ioo.mpr ⟨after, before⟩, level.le, not_le.mp above⟩
    rw [← same] at rising
    exact absurd level (Finset.mem_filter.mp rising).2.1.ne
  · intro level
    apply counted_subset.antisymm
    intro u rising
    obtain ⟨inside, low, high⟩ := Finset.mem_filter.mp rising
    obtain ⟨after, before⟩ := Finset.mem_Ioo.mp inside
    refine Finset.mem_filter.mpr ⟨inside, lt_of_le_of_ne low fun same => ?_, high⟩
    exact absurd (level u after before same) (not_le.mpr high)

private theorem edge_count_eq (bin : Bin r p t) {e : BitVec width}
    (constant : ∀ k, (i k).edgeThreshold = e) :
    (reduction signed bits r i t).edgeCount = BitVec.ofInt 22
      (countedEdges (fun k => number signed (i k).input) (number signed e) p t).card := by
  have counted : (reduction signed bits r i t).edgeCount = BitVec.ofInt 22
      (total (fun u => if p < u ∧ number signed (i (u - 1)).input < number signed e ∧
        number signed e < number signed (i u).input then 1 else 0) p t) := by
    apply accumulated bin fun s => s.edgeCount
    · intro g s pulse
      rw [if_neg fun inside => Nat.lt_irrefl p inside.1, next_edge_count, if_pos pulse]
      rfl
    · intro k after _ g quiet busy
      have before : (reduction signed bits r i k).notAboveThreshold =
          decide (number signed (i (k - 1)).input < number signed e) := by
        obtain ⟨u, rfl⟩ := Nat.exists_eq_add_of_lt (Nat.lt_of_le_of_lt (Nat.zero_le p) after)
        rw [Nat.zero_add, reduction_succ, ← constant u]
        rfl
      have edge : (reduction signed bits r i k).edge signed (i k) =
          decide (number signed (i (k - 1)).input < number signed e ∧
            number signed e < number signed (i k).input) := by
        rw [Reduction.edge, before, constant, Bool.decide_and]
      rw [next_edge_count, if_neg (by simp [quiet]), busy, Bool.true_and, edge]
      by_cases rises : number signed (i (k - 1)).input < number signed e ∧
          number signed e < number signed (i k).input
      · rw [if_pos (decide_eq_true rises), if_pos ⟨after, rises⟩]
        rfl
      · rw [if_neg (by simpa using rises), if_neg fun inside => rises inside.2]
        exact (BitVec.add_zero _).symm
  have inner : (Finset.Ico p t).filter (fun u => p < u ∧ number signed (i (u - 1)).input < number signed e ∧
      number signed e < number signed (i u).input) =
      countedEdges (fun k => number signed (i k).input) (number signed e) p t := by
    ext u
    simp only [countedEdges, Finset.mem_filter, Finset.mem_Ico, Finset.mem_Ioo]
    constructor
    · rintro ⟨⟨-, before⟩, after, edge⟩
      exact ⟨⟨after, before⟩, edge⟩
    · rintro ⟨⟨after, before⟩, edge⟩
      exact ⟨⟨after.le, before⟩, after, edge⟩
  rw [counted, total_events, inner]

end Edges

/-- With fewer rising edges than the register can count, it has counted all of them exactly if none
of them starts from the threshold itself. -/
theorem edge_count_iff (bin : Bin r p t) (e : BitVec width) (constant : ∀ k, (i k).edgeThreshold = e)
    (few : (risingEdges (fun k => number signed (i k).input) (number signed e) p t).card < 2 ^ 22) :
    (reduction signed bits r i t).edgeCount.toNat =
        (risingEdges (fun k => number signed (i k).input) (number signed e) p t).card ↔
      ∀ u, p < u → u < t → (i (u - 1)).input = e → number signed (i u).input ≤ number signed e := by
  have fewer : (countedEdges (fun k => number signed (i k).input) (number signed e) p t).card ≤
      (risingEdges (fun k => number signed (i k).input) (number signed e) p t).card :=
    Finset.card_le_card counted_subset
  have value : (reduction signed bits r i t).edgeCount.toNat =
      (countedEdges (fun k => number signed (i k).input) (number signed e) p t).card := by
    rw [edge_count_eq bin constant, BitVec.ofInt_natCast, BitVec.toNat_ofNat]
    exact Nat.mod_eq_of_lt (by omega)
  have level : (∀ u, p < u → u < t → (i (u - 1)).input = e → number signed (i u).input ≤ number signed e) ↔
      ∀ u, p < u → u < t → number signed (i (u - 1)).input = number signed e →
        number signed (i u).input ≤ number signed e := by
    simp only [number_injective.eq_iff]
  rw [value, level, ← counted_eq_rising_iff (f := fun k => number signed (i k).input)]
  constructor
  · intro same
    exact Finset.eq_of_subset_of_card_le counted_subset same.ge
  · intro same
    rw [same]

def climbing : ℕ → Signals 2 := fun k => ⟨if k < 2 then 0 else 2, 0, 1, 0, 0⟩

theorem edge_count_climbing :
    risingEdges (fun k => number false (climbing k).input) 1 1 4 = {2} ∧
      (reduction false 2 ((two none).burst twoPowerUp once) climbing 4).edgeCount.toNat =
        (risingEdges (fun k => number false (climbing k).input) 1 1 4).card := by
  refine ⟨by decide, (edge_count_iff two_bin 1 (fun _ => rfl) (by decide)).mpr fun u after before level => ?_⟩
  have apart : ∀ k, (climbing k).input ≠ 1 := by
    intro k
    unfold climbing
    split <;> decide
  exact absurd level (apart (u - 1))

/-- The edge in cycle three starts from the threshold, and is not counted. -/
theorem edge_count_counterexample :
    Bin ((two none).burst twoPowerUp once) 1 4 ∧
      risingEdges (fun k => number false (dwelling k).input) (number false (dwelling 0).edgeThreshold) 1 4 =
        {3} ∧
      (reduction false 2 ((two none).burst twoPowerUp once) dwelling 4).edgeCount = 0 :=
  ⟨two_bin, by decide, by decide +kernel⟩

end Pypga.Modules.BinContents
