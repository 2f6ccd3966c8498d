/- GID: Pypga/Migen/SpiLockstep
   generality: G
   digest: The transfer machine and its clock generator stay in lockstep, one half cycle at a time. -/

import Pypga.Migen.SpiMachine

set_option autoImplicit false
set_option relaxedAutoImplicit false

namespace Pypga.Migen.SpiLockstep

open Pypga.Foundation.ClockedMachine (Reachable reachable_invariant)
open Pypga.Foundation.FixedWidth (trunc trunc_of_fits trunc_pred)
open Pypga.Migen.Operands (getLength get_length_pos lt_two_pow_get_length)
open Pypga.Migen.SpiMachine

/-- Between two half cycles: the generator is started exactly when there is more to wait for. -/
def boundary {w : ℕ} (f : SpiState) (m : ℕ) (r : ShiftRegister w) : Spi w :=
  ⟨f, decide (0 < m), m, ⟨.idle, 0⟩, r⟩

/-- The half cycle begun `j` edges ago is still running. -/
def ticking {w : ℕ} (div : ℕ) (f : SpiState) (m : ℕ) (r : ShiftRegister w) (j : ℕ) : Spi w :=
  ⟨f, false, m, ⟨.counting, div - j⟩, r⟩

def leadingCount (c : SpiConfig) (clkPhase : Bool) : ℕ :=
  if clkPhase then c.leadingHalfcycles + (if c.leadingHalfcycles = 0 then 1 else 0)
  else c.leadingHalfcycles

variable {c : SpiConfig}

private theorem fits_of_le {n : ℕ} (narrow : getLength (.int n) ≤ c.counterWidth) :
    n < 2 ^ c.counterWidth :=
  lt_of_lt_of_le (lt_two_pow_get_length n) (Nat.pow_le_pow_right (by omega) narrow)

theorem data_width_fits : c.dataWidth < 2 ^ c.counterWidth :=
  fits_of_le (by simp only [SpiConfig.counterWidth]; omega)

theorem trailing_fits : c.trailingHalfcycles < 2 ^ c.counterWidth :=
  fits_of_le (by simp only [SpiConfig.counterWidth]; omega)

theorem idle_fits : c.idleHalfcycles < 2 ^ c.counterWidth :=
  fits_of_le (by simp only [SpiConfig.counterWidth]; omega)

theorem leading_fits (clkPhase : Bool) : leadingCount c clkPhase < 2 ^ c.counterWidth := by
  have narrow : getLength (.int c.leadingHalfcycles) ≤ c.counterWidth := by
    simp only [SpiConfig.counterWidth]
    omega
  have given : c.leadingHalfcycles < 2 ^ c.counterWidth := fits_of_le narrow
  have one : 1 < 2 ^ c.counterWidth :=
    Nat.one_lt_two_pow (by have := get_length_pos (.int c.leadingHalfcycles); omega)
  unfold leadingCount
  split_ifs <;> omega

theorem next_boundary (i : SpiInput c.dataWidth) {f : SpiState} (active : f ≠ .idle) {m : ℕ}
    (positive : 0 < m) (r : ShiftRegister c.dataWidth) (div : 1 ≤ c.clockDiv) :
    c.next i (boundary f m r) = ticking c.clockDiv f m r 1 := by
  have nonzero : m ≠ 0 := by omega
  have wide := lt_two_pow_get_length c.clockDiv
  have loaded : trunc (getLength (.int c.clockDiv)) ((c.clockDiv : ℤ) - 1) = c.clockDiv - 1 :=
    trunc_pred div wide
  cases f <;>
    simp_all [SpiConfig.next, SpiConfig.act, boundary, ticking, ClockGen.done, ClockGen.next,
      ShiftRegister.next]

theorem next_ticking (i : SpiInput c.dataWidth) {f : SpiState} (active : f ≠ .idle) {m : ℕ}
    (positive : 0 < m) (r : ShiftRegister c.dataWidth) {j : ℕ} (running : j < c.clockDiv) :
    c.next i (ticking c.clockDiv f m r j) = ticking c.clockDiv f m r (j + 1) := by
  have nonzero : m ≠ 0 := by omega
  have left : ¬ c.clockDiv - j = 0 := by omega
  have wide := lt_two_pow_get_length c.clockDiv
  have less : trunc (getLength (.int c.clockDiv)) (((c.clockDiv - j : ℕ) : ℤ) - 1) =
      c.clockDiv - (j + 1) := by
    rw [trunc_pred (by omega) (by omega)]
    omega
  cases f <;>
    simp_all [SpiConfig.next, SpiConfig.act, ticking, ClockGen.done, ClockGen.next,
      ShiftRegister.next]

theorem next_waited (i : SpiInput c.dataWidth) {f : SpiState}
    (waiting : f = .leadingHalfcycles ∨ f = .trailingHalfcycles ∨ f = .idleHalfcycles) {m : ℕ}
    (positive : 0 < m) (fits : m < 2 ^ c.counterWidth) (r : ShiftRegister c.dataWidth) :
    c.next i (ticking c.clockDiv f m r c.clockDiv) = boundary f (m - 1) r := by
  have nonzero : m ≠ 0 := by omega
  have less : trunc c.counterWidth ((m : ℤ) - 1) = m - 1 := trunc_pred positive fits
  rcases waiting with rfl | rfl | rfl <;>
    simp [SpiConfig.next, SpiConfig.act, ticking, boundary, ClockGen.done, ClockGen.next,
      ShiftRegister.next, nonzero, less]

theorem next_first_over (i : SpiInput c.dataWidth) {m : ℕ} (positive : 0 < m)
    (r : ShiftRegister c.dataWidth) :
    c.next i (ticking c.clockDiv .firstHalfcycle m r c.clockDiv) =
      boundary .secondHalfcycle m r := by
  have nonzero : m ≠ 0 := by omega
  simp [SpiConfig.next, SpiConfig.act, ticking, boundary, ClockGen.done, ClockGen.next,
    ShiftRegister.next, nonzero, positive]

theorem next_second_over (i : SpiInput c.dataWidth) {m : ℕ} (positive : 0 < m)
    (fits : m < 2 ^ c.counterWidth) (r : ShiftRegister c.dataWidth) :
    c.next i (ticking c.clockDiv .secondHalfcycle m r c.clockDiv) =
      boundary .firstHalfcycle (m - 1) (r.next false true i.lsbFirst i.pdo) := by
  have less : trunc c.counterWidth ((m : ℤ) - 1) = m - 1 := trunc_pred positive fits
  simp [SpiConfig.next, SpiConfig.act, ticking, boundary, ClockGen.done, ClockGen.next, less]

theorem next_idle_start (i : SpiInput c.dataWidth) (r : ShiftRegister c.dataWidth)
    (start : i.start = true) :
    c.next i (boundary .idle 0 r) =
      boundary .leadingHalfcycles (leadingCount c i.clkPhase) r := by
  have fits := leading_fits (c := c) i.clkPhase
  have loaded := trunc_of_fits fits
  cases phase : i.clkPhase with
  | false =>
    simp only [leadingCount, phase] at loaded
    simp_all [SpiConfig.next, SpiConfig.act, boundary, ClockGen.next, ShiftRegister.next,
      leadingCount]
  | true =>
    have some : 0 < c.leadingHalfcycles + (if c.leadingHalfcycles = 0 then 1 else 0) := by
      split_ifs <;> omega
    simp only [leadingCount, phase, if_true] at loaded
    push_cast at loaded
    simp [SpiConfig.next, SpiConfig.act, boundary, ClockGen.next, ShiftRegister.next, start,
      phase, leadingCount, loaded, some]

theorem next_idle_rest (i : SpiInput c.dataWidth) (r : ShiftRegister c.dataWidth)
    (rest : i.start = false) : c.next i (boundary .idle 0 r) = boundary .idle 0 r := by
  simp [SpiConfig.next, SpiConfig.act, boundary, ClockGen.next, ShiftRegister.next, rest]

/-- The word is taken from the parallel input in the cycle before the first bit. -/
theorem next_leading_over (i : SpiInput c.dataWidth) (r : ShiftRegister c.dataWidth)
    (width : 0 < c.dataWidth) :
    c.next i (boundary .leadingHalfcycles 0 r) =
      boundary .firstHalfcycle c.dataWidth ⟨i.pdo, outgoing i.lsbFirst i.pdo⟩ := by
  have loaded := trunc_of_fits (data_width_fits (c := c))
  simp [SpiConfig.next, SpiConfig.act, boundary, ClockGen.next, ShiftRegister.next, loaded, width]

theorem next_word_over (i : SpiInput c.dataWidth) (r : ShiftRegister c.dataWidth) :
    c.next i (boundary .firstHalfcycle 0 r) =
      boundary .trailingHalfcycles c.trailingHalfcycles r := by
  have loaded := trunc_of_fits (trailing_fits (c := c))
  simp [SpiConfig.next, SpiConfig.act, boundary, ClockGen.next, ShiftRegister.next, loaded]

theorem next_trailing_over (i : SpiInput c.dataWidth) (r : ShiftRegister c.dataWidth) :
    c.next i (boundary .trailingHalfcycles 0 r) = boundary .idleHalfcycles c.idleHalfcycles r := by
  have loaded := trunc_of_fits (idle_fits (c := c))
  simp [SpiConfig.next, SpiConfig.act, boundary, ClockGen.next, ShiftRegister.next, loaded]

theorem next_idle_over (i : SpiInput c.dataWidth) (r : ShiftRegister c.dataWidth) :
    c.next i (boundary .idleHalfcycles 0 r) = boundary .idle 0 r := by
  simp [SpiConfig.next, SpiConfig.act, boundary, ClockGen.next, ShiftRegister.next]

inductive Lockstep (c : SpiConfig) : Spi c.dataWidth → Prop
  | boundary (f : SpiState) (m : ℕ) (r : ShiftRegister c.dataWidth)
      (fits : m < 2 ^ c.counterWidth) (idle : f = .idle → m = 0)
      (second : f = .secondHalfcycle → 0 < m) : Lockstep c (boundary f m r)
  | ticking (f : SpiState) (m : ℕ) (r : ShiftRegister c.dataWidth) (j : ℕ)
      (fits : m < 2 ^ c.counterWidth) (active : f ≠ .idle) (positive : 0 < m)
      (started : 1 ≤ j) (running : j ≤ c.clockDiv) :
      Lockstep c (ticking c.clockDiv f m r j)

private theorem lockstep_edge (width : 0 < c.dataWidth) (div : 1 ≤ c.clockDiv)
    (i : SpiInput c.dataWidth) {s : Spi c.dataWidth} (before : Lockstep c s) :
    Lockstep c (c.next i s) := by
  cases before with
  | boundary f m r fits idle second =>
    by_cases positive : 0 < m
    · have active : f ≠ .idle := by
        intro rest
        have := idle rest
        omega
      rw [next_boundary i active positive r div]
      exact .ticking f m r 1 fits active positive le_rfl div
    · obtain rfl : m = 0 := by omega
      cases f with
      | idle =>
        cases start : i.start with
        | false =>
          rw [next_idle_rest i r start]
          exact .boundary _ _ _ fits idle second
        | true =>
          rw [next_idle_start i r start]
          exact .boundary _ _ _ (leading_fits _) (by simp) (by simp)
      | leadingHalfcycles =>
        rw [next_leading_over i r width]
        exact .boundary _ _ _ data_width_fits (by simp) (by simp)
      | firstHalfcycle =>
        rw [next_word_over i r]
        exact .boundary _ _ _ trailing_fits (by simp) (by simp)
      | secondHalfcycle =>
        have := second rfl
        omega
      | trailingHalfcycles =>
        rw [next_trailing_over i r]
        exact .boundary _ _ _ idle_fits (by simp) (by simp)
      | idleHalfcycles =>
        rw [next_idle_over i r]
        exact .boundary _ _ _ fits (by simp) (by simp)
  | ticking f m r j fits active positive started running =>
    rcases Nat.lt_or_eq_of_le running with more | rfl
    · rw [next_ticking i active positive r more]
      exact .ticking f m r (j + 1) fits active positive (by omega) (by omega)
    · cases f with
      | idle => exact absurd rfl active
      | leadingHalfcycles =>
        rw [next_waited i (.inl rfl) positive fits r]
        exact .boundary _ _ _ (by omega) (by simp) (by simp)
      | firstHalfcycle =>
        rw [next_first_over i positive r]
        exact .boundary _ _ _ fits (by simp) (fun _ => positive)
      | secondHalfcycle =>
        rw [next_second_over i positive fits r]
        exact .boundary _ _ _ (by omega) (by simp) (by simp)
      | trailingHalfcycles =>
        rw [next_waited i (.inr (.inl rfl)) positive fits r]
        exact .boundary _ _ _ (by omega) (by simp) (by simp)
      | idleHalfcycles =>
        rw [next_waited i (.inr (.inr rfl)) positive fits r]
        exact .boundary _ _ _ (by omega) (by simp) (by simp)

theorem lockstep_reachable (width : 0 < c.dataWidth) (div : 1 ≤ c.clockDiv)
    {s : Spi c.dataWidth} (h : Reachable c.next c.powerUp s) : Lockstep c s :=
  reachable_invariant (Lockstep c)
    (.boundary .idle 0 _ (Nat.two_pow_pos _) (fun _ => rfl) (by simp))
    (fun i _ before => lockstep_edge width div i before) h

theorem reachable_idle (width : 0 < c.dataWidth) (div : 1 ≤ c.clockDiv) {s : Spi c.dataWidth}
    (h : Reachable c.next c.powerUp s) (idle : s.fsm = .idle) : s = boundary .idle 0 s.reg := by
  cases lockstep_reachable width div h with
  | boundary f m r fits rest second =>
    obtain rfl : f = .idle := idle
    rw [rest rfl]
    rfl
  | ticking f m r j fits active positive started running => exact absurd idle active

end Pypga.Migen.SpiLockstep
