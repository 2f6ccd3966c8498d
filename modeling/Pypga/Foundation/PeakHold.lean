/- GID: Pypga/Foundation/PeakHold
   generality: G
   digest: A register that is loaded once and then keeps the greatest, or the least, of what it sees. -/

import Mathlib.Order.Bounds.Basic
import Mathlib.Order.Interval.Set.Basic

set_option autoImplicit false
set_option relaxedAutoImplicit false

namespace Pypga.Foundation.PeakHold

variable {α : Type*}

/-- The values of a waveform in the cycles `u ≤ k < v`. -/
def seen (f : ℕ → α) (u v : ℕ) : Set α := Set.image f (Set.Ico u v)

theorem mem_seen {f : ℕ → α} {u v : ℕ} {x : α} : x ∈ seen f u v ↔ ∃ k, u ≤ k ∧ k < v ∧ f k = x := by
  simp only [seen, Set.mem_image, Set.mem_Ico, and_assoc]

private theorem seen_single (f : ℕ → α) (u : ℕ) : seen f u (u + 1) = {f u} := by
  ext x
  rw [mem_seen, Set.mem_singleton_iff]
  constructor
  · rintro ⟨k, after, before, rfl⟩
    obtain rfl : k = u := by omega
    rfl
  · rintro rfl
    exact ⟨u, le_rfl, Nat.lt_succ_self u, rfl⟩

private theorem seen_succ (f : ℕ → α) {u v : ℕ} (after : u ≤ v) :
    seen f u (v + 1) = insert (f v) (seen f u v) := by
  ext x
  rw [Set.mem_insert_iff, mem_seen, mem_seen]
  constructor
  · rintro ⟨k, later, before, rfl⟩
    rcases Nat.lt_succ_iff_lt_or_eq.mp before with inside | rfl
    · exact .inr ⟨k, later, inside, rfl⟩
    · exact .inl rfl
  · rintro (rfl | ⟨k, later, before, rfl⟩)
    · exact ⟨v, after, Nat.lt_succ_self v, rfl⟩
    · exact ⟨k, later, Nat.lt_succ_of_lt before, rfl⟩

theorem seen_const (x : α) {u v : ℕ} (before : u < v) : seen (fun _ => x) u v = {x} := by
  ext y
  rw [mem_seen, Set.mem_singleton_iff]
  constructor
  · rintro ⟨-, -, -, rfl⟩
    rfl
  · rintro rfl
    exact ⟨u, le_rfl, before, rfl⟩

variable [LinearOrder α]

def Extremum (least : Bool) (S : Set α) (x : α) : Prop :=
  if least then IsLeast S x else IsGreatest S x

def better (least : Bool) (x y : α) : α := if least then min x y else max x y

variable {least : Bool} {S : Set α} {x y : α}

theorem extremum_single : Extremum least {x} x := by
  cases least with
  | false => exact isGreatest_singleton
  | true => exact isLeast_singleton

theorem extremum_unique (left : Extremum least S x) (right : Extremum least S y) : x = y := by
  cases least with
  | false => exact IsGreatest.unique left right
  | true => exact IsLeast.unique left right

private theorem extremum_insert (best : Extremum least S x) :
    Extremum least (insert y S) (better least x y) := by
  cases least with
  | false =>
    show IsGreatest (insert y S) (max x y)
    rw [max_comm]
    exact IsGreatest.insert y best
  | true =>
    show IsLeast (insert y S) (min x y)
    rw [min_comm]
    exact IsLeast.insert y best

theorem extremum_of_hold (reg : ℕ → α) {f : ℕ → α} {u v : ℕ} (before : u < v) (load : reg (u + 1) = f u)
    (keep : ∀ k, u < k → k < v → reg (k + 1) = better least (reg k) (f k)) :
    Extremum least (seen f u v) (reg v) := by
  obtain ⟨n, rfl⟩ := Nat.exists_eq_add_of_le (Nat.succ_le_of_lt before)
  induction n with
  | zero =>
    rw [seen_single, Nat.add_zero, load]
    exact extremum_single
  | succ n ih =>
    have so_far := ih (by omega) fun k later earlier => keep k later (by omega)
    rw [← Nat.add_assoc, seen_succ f (by omega), keep (u + 1 + n) (by omega) (by omega)]
    exact extremum_insert so_far

end Pypga.Foundation.PeakHold
