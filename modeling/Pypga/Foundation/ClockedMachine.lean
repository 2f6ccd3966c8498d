/- GID: Pypga/Foundation/ClockedMachine
   generality: G
   digest: Synchronous machines under input waveforms, their runs, reachable states and invariants. -/

import Mathlib.Data.Nat.Init
import Mathlib.Order.Basic

set_option autoImplicit false
set_option relaxedAutoImplicit false

namespace Pypga.Foundation.ClockedMachine

variable {ι σ : Type*}

/-- The state after `n` clock edges; the edge `n` consumes the input `w n`. -/
def run (next : ι → σ → σ) (s : σ) (w : ℕ → ι) : ℕ → σ
  | 0 => s
  | n + 1 => next (w n) (run next s w n)

/-- The waveform seen by an observer who starts counting `m` edges later. -/
def shift (w : ℕ → ι) (m : ℕ) : ℕ → ι := fun k => w (m + k)

@[simp] theorem shift_apply (w : ℕ → ι) (m k : ℕ) : shift w m k = w (m + k) := rfl

theorem run_succ (next : ι → σ → σ) (s : σ) (w : ℕ → ι) (n : ℕ) :
    run next s w (n + 1) = next (w n) (run next s w n) := rfl

theorem run_add (next : ι → σ → σ) (s : σ) (w : ℕ → ι) (m n : ℕ) :
    run next s w (m + n) = run next (run next s w m) (shift w m) n := by
  induction n with
  | zero => rfl
  | succ n ih => rw [← Nat.add_assoc, run_succ, run_succ, ih, shift_apply]

theorem run_congr {next : ι → σ → σ} {s : σ} {w w' : ℕ → ι} {n : ℕ} (same : ∀ u < n, w u = w' u) :
    run next s w n = run next s w' n := by
  induction n with
  | zero => rfl
  | succ n ih =>
    rw [run_succ, run_succ, same n (Nat.lt_succ_self n), ih fun u earlier => same u (Nat.lt_succ_of_lt earlier)]

inductive Reachable (next : ι → σ → σ) (initial : σ) : σ → Prop
  | initial : Reachable next initial initial
  | step (i : ι) {s : σ} (before : Reachable next initial s) :
      Reachable next initial (next i s)

theorem reachable_invariant {next : ι → σ → σ} {initial s : σ} (P : σ → Prop)
    (base : P initial) (edge : ∀ i s, P s → P (next i s))
    (h : Reachable next initial s) : P s := by
  induction h with
  | initial => exact base
  | step i _ ih => exact edge i _ ih

theorem run_invariant {next : ι → σ → σ} {s : σ} {w : ℕ → ι} (P : ℕ → σ → Prop)
    (base : P 0 s) (edge : ∀ n s, P n s → P (n + 1) (next (w n) s)) (n : ℕ) :
    P n (run next s w n) := by
  induction n with
  | zero => exact base
  | succ n ih => exact edge n _ ih

theorem run_kept {α : Type*} {next : ι → σ → σ} {s : σ} {w : ℕ → ι} (f : σ → α) {lo hi : ℕ}
    (kept : ∀ u, lo ≤ u → u < hi → ∀ s, f (next (w u) s) = f s) {k : ℕ} (after : lo ≤ k)
    (before : k ≤ hi) : f (run next s w k) = f (run next s w lo) := by
  obtain ⟨n, rfl⟩ := Nat.exists_eq_add_of_le after
  induction n with
  | zero => rfl
  | succ n ih =>
    have edge := kept (lo + n) (by omega) (by omega) (run next s w (lo + n))
    exact edge.trans (ih (by omega) (by omega))

theorem run_assigned {α : Type*} {next : ι → σ → σ} {s : σ} {w : ℕ → ι} (f : σ → α) {t₀ t : ℕ} {x : α}
    (assigned : ∀ s, f (next (w t₀) s) = x) (after : t₀ < t)
    (kept : ∀ u, t₀ < u → u < t → ∀ s, f (next (w u) s) = f s) : f (run next s w t) = x := by
  have stays : f (run next s w t) = f (run next s w (t₀ + 1)) := run_kept f kept after (Nat.le_refl t)
  exact stays.trans (assigned _)

theorem run_component {κ τ : Type*} {next : ι → σ → σ} {inner : κ → τ → τ} (f : σ → τ)
    (input : ι → σ → κ) (edge : ∀ i s, f (next i s) = inner (input i s) (f s)) (s : σ) (w : ℕ → ι) :
    (fun k => f (run next s w k)) = run inner (f s) fun k => input (w k) (run next s w k) := by
  funext k
  induction k with
  | zero => rfl
  | succ k ih => rw [run_succ, run_succ, edge, ← ih]

/-- Where work of a fixed length leads from rest to rest, every time is at rest or in some work. -/
theorem rest_or_work (rests : ℕ → Prop) (starts : ℕ → Bool) {period : ℕ} (takes : 0 < period)
    (base : rests 0) (waits : ∀ n, rests n → starts n = false → rests (n + 1))
    (works : ∀ n, rests n → starts n = true → rests (n + period)) (k : ℕ) :
    ∃ n ≤ k, rests n ∧ (n = k ∨ starts n = true ∧ k < n + period) := by
  induction k with
  | zero => exact ⟨0, Nat.le_refl _, base, .inl rfl⟩
  | succ k ih =>
    obtain ⟨n, before, rest, rfl | ⟨started, inside⟩⟩ := ih
    · cases started : starts n with
      | false => exact ⟨n + 1, Nat.le_refl _, waits n rest started, .inl rfl⟩
      | true =>
        by_cases done : n + 1 = n + period
        · exact ⟨n + 1, Nat.le_refl _, done ▸ works n rest started, .inl rfl⟩
        · exact ⟨n, Nat.le_succ n, rest, .inr ⟨started, by omega⟩⟩
    · by_cases done : k + 1 = n + period
      · exact ⟨k + 1, Nat.le_refl _, done ▸ works n rest started, .inl rfl⟩
      · exact ⟨n, by omega, rest, .inr ⟨started, by omega⟩⟩

theorem run_related {next : ι → σ → σ} {s s' : σ} {w w' : ℕ → ι} (R : σ → σ → Prop)
    (base : R s s') (edge : ∀ n s s', R s s' → R (next (w n) s) (next (w' n) s')) (n : ℕ) :
    R (run next s w n) (run next s' w' n) := by
  induction n with
  | zero => exact base
  | succ n ih => exact edge n _ _ ih

end Pypga.Foundation.ClockedMachine
