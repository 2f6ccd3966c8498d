/- GID: Pypga/Foundation/ConeOfInfluence
   generality: G
   digest: Networks of wires and clocked signals; what a closed set of signals does is decided inside it. -/

import Mathlib.Logic.Function.DependsOn

set_option autoImplicit false
set_option relaxedAutoImplicit false

namespace Pypga.Foundation.ConeOfInfluence

variable {σ β : Type*}

/-- What sets a signal: nothing inside the network, the other signals of the same cycle, or those of
the cycle before. -/
inductive Driver (σ β : Type*)
  | input
  | wire (f : (σ → β) → β)
  | clocked (f : (σ → β) → β)

structure Trace (driver : σ → Driver σ β) (v : ℕ → σ → β) : Prop where
  settled : ∀ k s f, driver s = .wire f → v k s = f (v k)
  edge : ∀ k s f, driver s = .clocked f → v (k + 1) s = f (v k)

structure Feeds (driver : σ → Driver σ β) (feeds : σ → Set σ) : Prop where
  wire : ∀ s f, driver s = .wire f → DependsOn f (feeds s)
  clocked : ∀ s f, driver s = .clocked f → DependsOn f (feeds s)

/-- The wires of a set can be settled one after the other. -/
def Settles (driver : σ → Driver σ β) (feeds : σ → Set σ) (C : Set σ) : Prop :=
  ∃ rank : σ → ℕ, ∀ b ∈ C, ∀ f, driver b = .wire f → ∀ a ∈ feeds b, ∀ g, driver a = .wire g →
    rank a < rank b

variable {driver : σ → Driver σ β} {feeds : σ → Set σ} {C : Set σ} {v w : ℕ → σ → β}

private theorem settled_agree (sensitive : Feeds driver feeds) (closed : ∀ b ∈ C, feeds b ⊆ C)
    (settles : Settles driver feeds C) (first : Trace driver v) (second : Trace driver w) {k : ℕ}
    (given : ∀ b ∈ C, (∀ f, driver b ≠ .wire f) → v k b = w k b) : ∀ b ∈ C, v k b = w k b := by
  obtain ⟨rank, below⟩ := settles
  -- by the rank of a wire, all wires that feed it are lower
  have ranked : ∀ n, ∀ b ∈ C, rank b < n → v k b = w k b := by
    intro n
    induction n with
    | zero => intro b _ none; exact absurd none (Nat.not_lt_zero _)
    | succ n ih =>
      intro b inside ranked
      cases driven : driver b with
      | input => exact given b inside fun f wire => by rw [driven] at wire; cases wire
      | clocked f => exact given b inside fun f wire => by rw [driven] at wire; cases wire
      | wire f =>
        rw [first.settled k b f driven, second.settled k b f driven]
        apply sensitive.wire b f driven
        intro a feeding
        have there := closed b inside feeding
        by_cases wire : ∃ g, driver a = .wire g
        · obtain ⟨g, wired⟩ := wire
          have lower := below b inside f driven a feeding g wired
          exact ih a there (by omega)
        · exact given a there fun g wired => wire ⟨g, wired⟩
  intro b inside
  exact ranked (rank b + 1) b inside (Nat.lt_succ_self _)

theorem cone_agree (sensitive : Feeds driver feeds) (closed : ∀ b ∈ C, feeds b ⊆ C)
    (settles : Settles driver feeds C) (first : Trace driver v) (second : Trace driver w)
    (start : ∀ b ∈ C, ∀ f, driver b = .clocked f → v 0 b = w 0 b)
    (inputs : ∀ k, ∀ b ∈ C, driver b = .input → v k b = w k b) (k : ℕ) :
    ∀ b ∈ C, v k b = w k b := by
  induction k with
  | zero =>
    apply settled_agree sensitive closed settles first second
    intro b inside unwired
    cases driven : driver b with
    | input => exact inputs 0 b inside driven
    | clocked f => exact start b inside f driven
    | wire f => exact absurd driven (unwired f)
  | succ k ih =>
    apply settled_agree sensitive closed settles first second
    intro b inside unwired
    cases driven : driver b with
    | input => exact inputs (k + 1) b inside driven
    | clocked f =>
      rw [first.edge k b f driven, second.edge k b f driven]
      exact sensitive.clocked b f driven fun a feeding => ih a (closed b inside feeding)
    | wire f => exact absurd driven (unwired f)

end Pypga.Foundation.ConeOfInfluence
