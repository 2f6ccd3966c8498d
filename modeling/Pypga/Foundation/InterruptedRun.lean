/- GID: Pypga/Foundation/InterruptedRun
   generality: G
   digest: Sequences of operations that an exception can end after any of them. -/

import Pypga.Foundation.LabelledRun

set_option autoImplicit false
set_option relaxedAutoImplicit false

namespace Pypga.Foundation.InterruptedRun

open Pypga.Foundation.LabelledRun (run run_cons)

variable {ο σ : Type*} (apply : ο → σ → Option σ)

/-- The operations that take effect: an exception strikes after `n` of them, unless one raises
by itself before. -/
def performed : ℕ → List ο → σ → List ο
  | 0, _, _ => []
  | _ + 1, [], _ => []
  | n + 1, o :: os, s =>
    match apply o s with
    | none => []
    | some t => o :: performed n os t

def interrupted : ℕ → List ο → σ → σ
  | 0, _, s => s
  | _ + 1, [], s => s
  | n + 1, o :: os, s =>
    match apply o s with
    | none => s
    | some t => interrupted n os t

theorem performed_prefix (n : ℕ) (os : List ο) (s : σ) : performed apply n os s <+: os := by
  induction n generalizing os s with
  | zero => exact List.nil_prefix
  | succ n ih =>
    cases os with
    | nil => exact List.nil_prefix
    | cons o os =>
      unfold performed
      cases apply o s with
      | none => exact List.nil_prefix
      | some t => exact List.prefix_cons_inj o |>.mpr (ih os t)

theorem run_performed (n : ℕ) (os : List ο) (s : σ) :
    run apply (performed apply n os s) s = some (interrupted apply n os s) := by
  induction n generalizing os s with
  | zero => rfl
  | succ n ih =>
    cases os with
    | nil => rfl
    | cons o os =>
      unfold performed interrupted
      cases moved : apply o s with
      | none => rfl
      | some t => exact run_cons.mpr ⟨t, moved, ih os t⟩

theorem performed_of_run {n : ℕ} {os : List ο} {s t : σ} (long : os.length ≤ n)
    (path : run apply os s = some t) : performed apply n os s = os := by
  induction n generalizing os s with
  | zero =>
    obtain rfl : os = [] := List.length_eq_zero_iff.mp (by omega)
    rfl
  | succ n ih =>
    cases os with
    | nil => rfl
    | cons o os =>
      obtain ⟨m, first, rest⟩ := run_cons.mp path
      rw [performed, first]
      simp only [ih (by simpa using long) rest]

theorem prefix_append_cases {p a b : List ο} (start : p <+: a ++ b) :
    p <+: a ∨ ∃ c, p = a ++ c ∧ c <+: b := by
  rcases List.prefix_or_prefix_of_prefix start (List.prefix_append a b) with first | ⟨c, rfl⟩
  · exact .inl first
  · exact .inr ⟨c, rfl, (List.prefix_append_right_inj a).mp start⟩

/-- A part of the state that only some of the operations concern, each through its effect on that
part, runs through those effects. -/
theorem run_part {κ τ : Type*} {effect : κ → τ → Option τ} (f : σ → τ) (concern : ο → Option κ)
    (own : ∀ o k s t, concern o = some k → apply o s = some t → effect k (f s) = some (f t))
    (other : ∀ o s t, concern o = none → apply o s = some t → f t = f s) {os : List ο} {s t : σ}
    (path : run apply os s = some t) : run effect (os.filterMap concern) (f s) = some (f t) := by
  induction os generalizing s with
  | nil =>
    obtain rfl : s = t := by simpa using path
    rfl
  | cons o os ih =>
    obtain ⟨m, first, rest⟩ := run_cons.mp path
    cases concerned : concern o with
    | none =>
      rw [List.filterMap_cons_none concerned, ← other o s m concerned first]
      exact ih rest
    | some k =>
      rw [List.filterMap_cons_some concerned]
      exact run_cons.mpr ⟨f m, own o k s m concerned first, ih rest⟩

end Pypga.Foundation.InterruptedRun
