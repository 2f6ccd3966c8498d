/- GID: Pypga/Foundation/Waveform
   generality: G
   digest: The ordered list of the times of a window at which a signal is high. -/

import Mathlib.Data.List.Range

set_option autoImplicit false
set_option relaxedAutoImplicit false

namespace Pypga.Foundation.Waveform

/-- The times `lo ≤ k < hi` with `p k`, in increasing order. -/
def times (p : ℕ → Bool) (lo hi : ℕ) : List ℕ := (List.range' lo (hi - lo)).filter p

variable {p : ℕ → Bool} {lo mid hi : ℕ}

theorem mem_times {k : ℕ} : k ∈ times p lo hi ↔ lo ≤ k ∧ k < hi ∧ p k = true := by
  simp only [times, List.mem_filter, List.mem_range'_1]
  constructor
  · rintro ⟨⟨after, before⟩, high⟩
    exact ⟨after, by omega, high⟩
  · rintro ⟨after, before, high⟩
    exact ⟨⟨after, by omega⟩, high⟩

variable (mid) in
theorem times_split (left : lo ≤ mid) (right : mid ≤ hi) :
    times p lo hi = times p lo mid ++ times p mid hi := by
  have length : hi - lo = (mid - lo) + (hi - mid) := by omega
  have middle : lo + (mid - lo) = mid := by omega
  rw [times, length, ← List.range'_append_1, List.filter_append, middle]
  rfl

theorem times_sorted (p : ℕ → Bool) (lo hi : ℕ) : (times p lo hi).Pairwise (· < ·) :=
  (List.pairwise_lt_range').filter p

theorem times_eq_nil (low : ∀ k, lo ≤ k → k < hi → p k = false) : times p lo hi = [] := by
  apply List.filter_eq_nil_iff.mpr
  intro k hk
  have bounds := List.mem_range'_1.mp hk
  simp [low k bounds.1 (by omega)]

theorem times_succ (after : lo ≤ hi) :
    times p lo (hi + 1) = times p lo hi ++ if p hi then [hi] else [] := by
  have one : hi + 1 - hi = 1 := by omega
  rw [times_split hi after (Nat.le_succ hi)]
  simp [times, one, List.filter_cons]

theorem times_shift {q : ℕ → Bool} (later : ∀ k, lo ≤ k → k < hi → q (k + 1) = p k) :
    times q (lo + 1) (hi + 1) = (times p lo hi).map (· + 1) := by
  have bounds : hi + 1 - (lo + 1) = hi - lo := by omega
  rw [times, times, bounds, List.range'_succ_left, List.filter_map]
  congr 1
  apply List.filter_congr
  intro k member
  have inside := List.mem_range'_1.mp member
  exact later k inside.1 (by omega)

theorem times_translate (p : ℕ → Bool) (n lo hi : ℕ) :
    times p (n + lo) (n + hi) = (times (fun k => p (n + k)) lo hi).map (n + ·) := by
  rw [times, times, Nat.add_sub_add_left, ← List.map_add_range', List.filter_map]
  rfl

theorem times_prefix (before : lo ≤ mid) (later : mid ≤ hi) : times p lo mid <+: times p lo hi := by
  rw [times_split mid before later]
  exact List.prefix_append _ _

theorem getElem?_of_longer {α : Type*} {xs ys : List α} (longer : xs <+: ys) {k : ℕ} {x : α}
    (there : xs[k]? = some x) : ys[k]? = some x := by
  obtain ⟨rest, rfl⟩ := longer
  obtain ⟨below, -⟩ := List.getElem?_eq_some_iff.mp there
  rw [List.getElem?_append_left below, there]

theorem times_eq_singleton {t : ℕ} (after : lo ≤ t) (before : t < hi) (high : p t = true)
    (low : ∀ k, lo ≤ k → k < hi → k ≠ t → p k = false) : times p lo hi = [t] := by
  have single : times p t (t + 1) = [t] := by simp [times, high]
  rw [times_split t after before.le, times_split (t + 1) (Nat.le_succ t) before, single,
    times_eq_nil (fun k hlo hhi => low k hlo (by omega) (by omega)),
    times_eq_nil (fun k hlo hhi => low k (by omega) hhi (by omega))]
  rfl

theorem times_windows (start pulse : ℕ → ℕ) (n : ℕ)
    (inside : ∀ k, k < n → start k ≤ pulse k ∧ pulse k < start (k + 1))
    (high : ∀ k, k < n → p (pulse k) = true)
    (low : ∀ k, k < n → ∀ t, start k ≤ t → t < start (k + 1) → t ≠ pulse k → p t = false) :
    times p (start 0) (start n) = (List.range n).map pulse := by
  have ordered : ∀ k, k ≤ n → start 0 ≤ start k := by
    intro k
    induction k with
    | zero => intro _; exact le_rfl
    | succ k ih =>
      intro hk
      have step := inside k (by omega)
      have before := ih (by omega)
      omega
  induction n with
  | zero => simp [times]
  | succ n ih =>
    have step := inside n (by omega)
    have head := ih (fun k hk => inside k (by omega)) (fun k hk => high k (by omega))
      (fun k hk => low k (by omega)) (fun k hk => ordered k (by omega))
    rw [times_split (start n) (ordered n (by omega)) (by omega), head,
      times_eq_singleton step.1 step.2 (high n (by omega)) (low n (by omega)),
      List.range_succ, List.map_append]
    rfl

def rising (v : ℕ → Bool) (k : ℕ) : Bool := v k && !v (k - 1)

def falling (v : ℕ → Bool) (k : ℕ) : Bool := !v k && v (k - 1)

theorem edges_balance (v : ℕ → Bool) (a n : ℕ) :
    (times (rising v) (a + 1) (a + n + 1)).length + (v a).toNat =
      (times (falling v) (a + 1) (a + n + 1)).length + (v (a + n)).toNat := by
  induction n with
  | zero => simp [times]
  | succ n ih =>
    have first : a + 1 ≤ a + n + 1 := by omega
    rw [← Nat.add_assoc, times_succ (p := rising v) first, times_succ (p := falling v) first,
      List.length_append, List.length_append]
    simp only [rising, falling, Nat.add_sub_cancel]
    cases before : v (a + n) <;> cases after : v (a + n + 1) <;>
      simp [before] at ih ⊢ <;> omega

end Pypga.Foundation.Waveform
