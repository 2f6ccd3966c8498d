/- GID: Pypga/Foundation/LabelledRun
   generality: G
   digest: Runs of a partial labelled step function, conditions along them, invariants and simulations. -/

import Mathlib.Data.List.Basic

set_option autoImplicit false
set_option relaxedAutoImplicit false

namespace Pypga.Foundation.LabelledRun

variable {ι σ τ : Type*}

/-- The state after the labels, `none` when one of them is not enabled. -/
def run (step : ι → σ → Option σ) : List ι → σ → Option σ
  | [], s => some s
  | l :: ls, s => (step l s).bind (run step ls)

/-- Every step of the run meets the condition on its label and the state before it. -/
def Along (step : ι → σ → Option σ) (ok : ι → σ → Prop) : List ι → σ → Prop
  | [], _ => True
  | l :: ls, s => ok l s ∧ ∀ t, step l s = some t → Along step ok ls t

variable {step : ι → σ → Option σ} {ok : ι → σ → Prop}

@[simp] theorem run_nil (s : σ) : run step [] s = some s := rfl

theorem run_cons {l : ι} {ls : List ι} {s t : σ} :
    run step (l :: ls) s = some t ↔ ∃ m, step l s = some m ∧ run step ls m = some t :=
  Option.bind_eq_some_iff

theorem run_append {ls ks : List ι} {s t : σ} :
    run step (ls ++ ks) s = some t ↔ ∃ m, run step ls s = some m ∧ run step ks m = some t := by
  induction ls generalizing s with
  | nil => simp
  | cons l ls ih =>
    simp only [List.cons_append, run_cons, ih]
    constructor
    · rintro ⟨m, first, n, middle, last⟩
      exact ⟨n, ⟨m, first, middle⟩, last⟩
    · rintro ⟨n, ⟨m, first, middle⟩, last⟩
      exact ⟨m, first, n, middle, last⟩

theorem along_append {ls ks : List ι} {s : σ} :
    Along step ok (ls ++ ks) s ↔
      Along step ok ls s ∧ ∀ m, run step ls s = some m → Along step ok ks m := by
  induction ls generalizing s with
  | nil => simp [Along]
  | cons l ls ih =>
    simp only [List.cons_append, Along, run_cons, ih]
    constructor
    · rintro ⟨here, later⟩
      exact ⟨⟨here, fun t first => (later t first).1⟩,
        fun m ⟨t, first, rest⟩ => (later t first).2 m rest⟩
    · rintro ⟨⟨here, along⟩, later⟩
      exact ⟨here, fun t first => ⟨along t first, fun m rest => later m ⟨t, first, rest⟩⟩⟩

instance decidableAlong [∀ l s, Decidable (ok l s)] :
    ∀ (ls : List ι) (s : σ), Decidable (Along step ok ls s)
  | [], _ => .isTrue trivial
  | l :: ls, s =>
    match moved : step l s with
    | none => decidable_of_iff (ok l s) (by simp [Along, moved])
    | some t =>
      have := decidableAlong ls t
      decidable_of_iff (ok l s ∧ Along step ok ls t) (by simp [Along, moved])

theorem run_invariant (P : σ → Prop)
    (preserved : ∀ l s t, P s → ok l s → step l s = some t → P t)
    {ls : List ι} {s t : σ} (base : P s) (along : Along step ok ls s)
    (path : run step ls s = some t) : P t := by
  induction ls generalizing s with
  | nil =>
    obtain rfl : s = t := by simpa using path
    exact base
  | cons l ls ih =>
    obtain ⟨m, first, rest⟩ := run_cons.mp path
    exact ih (preserved l s m base along.1 first) (along.2 m first) rest

theorem run_history (P : List ι → σ → Prop)
    (preserved : ∀ ls l s t, P ls s → ok l s → step l s = some t → P (ls ++ [l]) t)
    {ls : List ι} {s t : σ} (base : P [] s) (along : Along step ok ls s)
    (path : run step ls s = some t) : P ls t := by
  have general : ∀ (ls past : List ι) (s : σ), P past s → Along step ok ls s →
      run step ls s = some t → P (past ++ ls) t := by
    intro ls
    induction ls with
    | nil =>
      intro past s holds _ path
      obtain rfl : s = t := by simpa using path
      rw [List.append_nil]
      exact holds
    | cons l ls ih =>
      intro past s holds along path
      obtain ⟨m, first, rest⟩ := run_cons.mp path
      have next := ih (past ++ [l]) m (preserved past l s m holds along.1 first)
        (along.2 m first) rest
      rw [List.append_assoc] at next
      exact next
  exact general ls [] s base along path

theorem along_of_labels {ls : List ι} {s : σ} (each : ∀ l ∈ ls, ∀ s, ok l s) :
    Along step ok ls s := by
  induction ls generalizing s with
  | nil => trivial
  | cons l ls ih =>
    refine ⟨each l List.mem_cons_self s, fun t _ => ?_⟩
    exact ih fun k later => each k (List.mem_cons_of_mem l later)

theorem along_and {ok' : ι → σ → Prop} {ls : List ι} {s : σ} (first : Along step ok ls s)
    (second : Along step ok' ls s) : Along step (fun l s => ok l s ∧ ok' l s) ls s := by
  induction ls generalizing s with
  | nil => trivial
  | cons l ls ih =>
    exact ⟨⟨first.1, second.1⟩, fun t moved => ih (first.2 t moved) (second.2 t moved)⟩

theorem along_mono {ok' : ι → σ → Prop} {ls : List ι} {s : σ}
    (weaker : ∀ l ∈ ls, ∀ s, ok l s → ok' l s) (along : Along step ok ls s) :
    Along step ok' ls s := by
  induction ls generalizing s with
  | nil => trivial
  | cons l ls ih =>
    refine ⟨weaker l List.mem_cons_self s along.1, fun t first => ?_⟩
    exact ih (fun k later => weaker k (List.mem_cons_of_mem l later)) (along.2 t first)

/-- If a step keeps a property exactly under a condition, then every state that is reached on the
way has the property exactly if every step meets the condition. -/
theorem reached_iff_along (P : σ → Prop)
    (kept : ∀ l s t, P s → step l s = some t → (P t ↔ ok l s))
    (stuck : ∀ l s, P s → step l s = none → ok l s) {ls : List ι} {s : σ} :
    (∀ past more t, ls = past ++ more → run step past s = some t → P t) ↔
      P s ∧ Along step ok ls s := by
  induction ls generalizing s with
  | nil =>
    constructor
    · intro all
      exact ⟨all [] [] s rfl rfl, trivial⟩
    · rintro ⟨holds, -⟩ past more t split path
      obtain rfl : past = [] := (List.append_eq_nil_iff.mp split.symm).1
      obtain rfl : s = t := by simpa using path
      exact holds
  | cons l ls ih =>
    constructor
    · intro all
      have holds := all [] (l :: ls) s rfl rfl
      have later : ∀ t, step l s = some t → P t ∧ Along step ok ls t := by
        intro t moved
        apply ih.mp
        intro past more u split path
        exact all (l :: past) more u (by rw [split, List.cons_append])
          (run_cons.mpr ⟨t, moved, path⟩)
      refine ⟨holds, ?_, fun t moved => (later t moved).2⟩
      cases moved : step l s with
      | none => exact stuck l s holds moved
      | some t => exact (kept l s t holds moved).mp (later t moved).1
    · rintro ⟨holds, here, later⟩ past more t split path
      cases past with
      | nil =>
        obtain rfl : s = t := by simpa using path
        exact holds
      | cons k past =>
        obtain ⟨rfl, rest⟩ := List.cons.inj split
        obtain ⟨m, first, onwards⟩ := run_cons.mp path
        exact ih.mpr ⟨(kept l s m holds first).mpr here, later m first⟩ past more t rest onwards

/-- While a goal is not reached some step is enabled, and every enabled step lowers a measure:
then the goal is reached. -/
theorem run_reaches (goal P : σ → Prop) (measure : σ → ℕ) (choice : ι → σ → Prop)
    (enabled : ∀ s, P s → ¬ goal s → ∃ l t, choice l s ∧ step l s = some t)
    (preserved : ∀ l s t, P s → choice l s → step l s = some t → P t ∧ measure t < measure s)
    {s : σ} (base : P s) :
    ∃ ls t, Along step choice ls s ∧ run step ls s = some t ∧ goal t := by
  induction size : measure s using Nat.strongRecOn generalizing s with
  | ind n ih =>
    by_cases reached : goal s
    · exact ⟨[], s, trivial, rfl, reached⟩
    · obtain ⟨l, m, chosen, first⟩ := enabled s base reached
      obtain ⟨kept, less⟩ := preserved l s m base chosen first
      obtain ⟨ls, t, along, rest, done⟩ := ih (measure m) (size ▸ less) kept rfl
      refine ⟨l :: ls, t, ⟨chosen, fun k other => ?_⟩, run_cons.mpr ⟨m, first, rest⟩, done⟩
      obtain rfl : m = k := Option.some.inj (first.symm.trans other)
      exact along

theorem run_length_le (P : σ → Prop) (measure : σ → ℕ) (choice : ι → σ → Prop)
    (preserved : ∀ l s t, P s → choice l s → step l s = some t → P t ∧ measure t < measure s)
    {ls : List ι} {s t : σ} (base : P s) (along : Along step choice ls s)
    (path : run step ls s = some t) : ls.length + measure t ≤ measure s := by
  induction ls generalizing s with
  | nil =>
    obtain rfl : s = t := by simpa using path
    simp
  | cons l ls ih =>
    obtain ⟨m, first, rest⟩ := run_cons.mp path
    obtain ⟨kept, less⟩ := preserved l s m base along.1 first
    have tail := ih kept (along.2 m first) rest
    rw [List.length_cons]
    omega

end Pypga.Foundation.LabelledRun
