/- GID: Pypga/Core/ClockedBoard
   generality: G
   digest: Clocked logic behind the registers: it runs on between the accesses of a session. -/

import Pypga.Core.RegisterFile
import Pypga.Foundation.ClockedMachine

set_option autoImplicit false
set_option relaxedAutoImplicit false

namespace Pypga.Core.ClockedBoard

open Pypga.Foundation.ClockedMachine (run)
open Pypga.Core.RegisterNames (Register)
open Pypga.Core.RegisterFile

abbrev Storages (kind : Register → Kind) := (r : Register) → BitVec (kind r).width

/-- The logic of a design, with the signals of the storages and the strobe of a register that was
written, and the signals it gives to the read-only registers. -/
structure Hardware (kind : Register → Kind) (σ : Type*) where
  next : Storages kind → Option Register → σ → σ
  status : σ → Storages kind

variable {kind : Register → Kind} {σ : Type*} (h : Hardware kind σ)

namespace Hardware

def idle (storage : Storages kind) (s : σ) : ℕ → σ :=
  run (fun (_ : Unit) => h.next storage none) s fun _ => ()

/-- An access, and the cycles up to the next one: one at least, and as many more as it comes later. -/
def logic : Logic kind (σ × (ℕ → ℕ)) where
  status s := h.status s.1
  next storage written s :=
    (h.idle storage (h.next storage written s.1) (s.2 0), fun k => s.2 (k + 1))

theorem idle_succ (storage : Storages kind) (s : σ) (n : ℕ) :
    h.idle storage s (n + 1) = h.next storage none (h.idle storage s n) := rfl

variable {h}

private theorem logic_invariant (P : σ → Prop)
    (step : ∀ storage written s, P s → P (h.next storage written s))
    {storage : Storages kind} {written : Option Register} {s : σ × (ℕ → ℕ)} (before : P s.1) :
    P ((h.logic.next storage written s).1) := by
  have waited (n : ℕ) : P (h.idle storage (h.next storage written s.1) n) := by
    induction n with
    | zero => exact step _ _ _ before
    | succ n ih => exact step _ _ _ ih
  exact waited (s.2 0)

theorem session_invariant (P : σ → Prop) (step : ∀ storage written s, P s → P (h.next storage written s))
    (uint32 : ℤ → Option Foundation.LittleEndian.Word) (statements : List Statement)
    {m : Machine kind (σ × (ℕ → ℕ))} (before : P m.logic.1) :
    P (performAll h.logic uint32 statements m).2.logic.1 := by
  have passed (written : Option Register) {m : Machine kind (σ × (ℕ → ℕ))} (before : P m.logic.1) :
      P (m.pass h.logic written).logic.1 := logic_invariant P step before
  have stored (r : Register) (v : BitVec (kind r).width) {m : Machine kind (σ × (ℕ → ℕ))}
      (before : P m.logic.1) : P (m.store h.logic r v).logic.1 := by
    unfold Machine.store
    split
    · exact passed none before
    · exact passed (some r) before
  induction statements generalizing m with
  | nil => exact before
  | cons s statements ih =>
    apply ih
    cases s with
    | get r =>
      cases shape : kind r with
      | value k =>
        simp only [perform, shape]
        exact passed none before
      | trigger k =>
        simp only [perform, shape]
        exact before
    | set r v =>
      cases shape : kind r with
      | value k =>
        simp only [perform, shape]
        split
        · exact before
        · split
          · exact stored r _ before
          · exact before
      | trigger k =>
        simp only [perform, shape]
        exact before
    | call r =>
      cases shape : kind r with
      | value k =>
        simp only [perform, shape]
        exact passed none before
      | trigger k =>
        simp only [perform, shape]
        exact stored r 0 before

end Hardware

end Pypga.Core.ClockedBoard
