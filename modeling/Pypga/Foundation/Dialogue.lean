/- GID: Pypga/Foundation/Dialogue
   generality: G
   digest: Programs that act on their surroundings and go on with the answers: runs, actions, pre- and postconditions. -/

import Mathlib.Data.List.Basic

set_option autoImplicit false
set_option relaxedAutoImplicit false

namespace Pypga.Foundation.Dialogue

inductive Program {κ : Type} (ρ : κ → Type) (α : Type)
  | done (a : α)
  | act (k : κ) (next : ρ k → Program ρ α)

variable {κ : Type} {ρ : κ → Type} {α β σ : Type}

def Program.bind : Program ρ α → (α → Program ρ β) → Program ρ β
  | .done a, f => f a
  | .act k next, f => .act k fun r => (next r).bind f

instance : Monad (Program ρ) where
  pure := .done
  bind := Program.bind

def perform (k : κ) : Program ρ (ρ k) := .act k .done

def run (answer : (k : κ) → σ → ρ k × σ) : Program ρ α → σ → α × σ
  | .done a, s => (a, s)
  | .act k next, s => run answer (next (answer k s).1) (answer k s).2

def actions (answer : (k : κ) → σ → ρ k × σ) : Program ρ α → σ → List κ
  | .done _, _ => []
  | .act k next, s => k :: actions answer (next (answer k s).1) (answer k s).2

variable {answer : (k : κ) → σ → ρ k × σ}

private theorem run_bind (p : Program ρ α) (f : α → Program ρ β) (s : σ) :
    run answer (p >>= f) s = run answer (f (run answer p s).1) (run answer p s).2 := by
  induction p generalizing s with
  | done a => rfl
  | act k next ih => exact ih (answer k s).1 (answer k s).2

private theorem actions_bind (p : Program ρ α) (f : α → Program ρ β) (s : σ) :
    actions answer (p >>= f) s =
      actions answer p s ++ actions answer (f (run answer p s).1) (run answer p s).2 := by
  induction p generalizing s with
  | done a => rfl
  | act k next ih =>
    have rest := ih (answer k s).1 (answer k s).2
    exact congrArg (k :: ·) rest

section Conditions

variable (answer)

/-- From every state with the precondition, the program ends with the postcondition. -/
def Ensures (P : σ → Prop) (p : Program ρ α) (Q : α → σ → Prop) : Prop :=
  ∀ s, P s → Q (run answer p s).1 (run answer p s).2

/-- From every state with the precondition, the program does nothing but what is allowed. -/
def Keeps (P : σ → Prop) (p : Program ρ α) (allowed : κ → Prop) : Prop :=
  ∀ s, P s → ∀ k ∈ actions answer p s, allowed k

variable {answer} {P P' : σ → Prop} {Q Q' : α → σ → Prop} {R : β → σ → Prop} {allowed : κ → Prop}

theorem ensures_done {a : α} (holds : ∀ s, P s → Q a s) : Ensures answer P (pure a) Q := holds

theorem ensures_perform {k : κ} {Q : ρ k → σ → Prop}
    (holds : ∀ s, P s → Q (answer k s).1 (answer k s).2) : Ensures answer P (perform k) Q := holds

theorem Ensures.bind {p : Program ρ α} {f : α → Program ρ β} (first : Ensures answer P p Q)
    (later : ∀ a, Ensures answer (Q a) (f a) R) : Ensures answer P (p >>= f) R := by
  intro s holds
  rw [run_bind]
  exact later _ _ (first s holds)

theorem Ensures.weaken {p : Program ρ α} (holds : Ensures answer P p Q) (pre : ∀ s, P' s → P s)
    (post : ∀ a s, Q a s → Q' a s) : Ensures answer P' p Q' :=
  fun s before => post _ _ (holds s (pre s before))

theorem keeps_done {a : α} : Keeps answer P (pure a : Program ρ α) allowed :=
  fun _ _ _ none => absurd none List.not_mem_nil

theorem keeps_perform {k : κ} (fine : allowed k) : Keeps answer P (perform k) allowed := by
  intro s _ k' member
  obtain rfl := List.mem_singleton.mp member
  exact fine

theorem Keeps.bind {p : Program ρ α} {f : α → Program ρ β} (here : Keeps answer P p allowed)
    (first : Ensures answer P p Q) (later : ∀ a, Keeps answer (Q a) (f a) allowed) :
    Keeps answer P (p >>= f) allowed := by
  intro s holds k member
  rw [actions_bind] at member
  rcases List.mem_append.mp member with early | late
  · exact here s holds k early
  · exact later _ _ (first s holds) k late

/-- What a program does first, where nothing need be known after it. -/
theorem Ensures.skip {p : Program ρ α} {f : α → Program ρ β}
    (later : ∀ a, Ensures answer (fun _ => True) (f a) R) : Ensures answer P (p >>= f) R :=
  Ensures.bind (Q := fun _ _ => True) (fun _ _ => trivial) later

theorem Keeps.skip {p : Program ρ α} {f : α → Program ρ β} (here : Keeps answer P p allowed)
    (later : ∀ a, Keeps answer (fun _ => True) (f a) allowed) : Keeps answer P (p >>= f) allowed :=
  Keeps.bind (Q := fun _ _ => True) here (fun _ _ => trivial) later

end Conditions

end Pypga.Foundation.Dialogue
