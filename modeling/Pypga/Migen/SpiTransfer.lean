/- GID: Pypga/Migen/SpiTransfer
   generality: G
   digest: A whole transfer, cycle by cycle, sends the loaded word bit by bit. -/

import Mathlib.Tactic.Ring
import Pypga.Foundation.Waveform
import Pypga.Migen.SpiLockstep

set_option autoImplicit false
set_option relaxedAutoImplicit false

namespace Pypga.Migen.SpiTransfer

open Pypga.Foundation.ClockedMachine (run run_succ run_add shift shift_apply)
open Pypga.Migen.SpiMachine
open Pypga.Migen.SpiLockstep

variable {c : SpiConfig}

theorem half_cycle {f : SpiState} (active : f ≠ .idle) {m : ℕ} (positive : 0 < m)
    (r : ShiftRegister c.dataWidth) (div : 1 ≤ c.clockDiv) (w : ℕ → SpiInput c.dataWidth) (j : ℕ)
    (running : j < c.clockDiv) :
    run c.next (boundary f m r) w (j + 1) = ticking c.clockDiv f m r (j + 1) := by
  induction j with
  | zero => exact next_boundary (w 0) active positive r div
  | succ j ih =>
    rw [run_succ, ih (by omega)]
    exact next_ticking (w (j + 1)) active positive r running

private theorem half_cycle_view {f : SpiState} (active : f ≠ .idle) {m : ℕ} (positive : 0 < m)
    (r : ShiftRegister c.dataWidth) (div : 1 ≤ c.clockDiv) (w : ℕ → SpiInput c.dataWidth) (k : ℕ)
    (inside : k ≤ c.clockDiv) :
    (run c.next (boundary f m r) w k).fsm = f ∧
      (run c.next (boundary f m r) w k).counter = m ∧
      (run c.next (boundary f m r) w k).reg = r := by
  cases k with
  | zero => exact ⟨rfl, rfl, rfl⟩
  | succ j =>
    rw [half_cycle active positive r div w j (by omega)]
    exact ⟨rfl, rfl, rfl⟩

private theorem half_cycle_end {f : SpiState} (active : f ≠ .idle) {m : ℕ} (positive : 0 < m)
    (r : ShiftRegister c.dataWidth) (div : 1 ≤ c.clockDiv) (w : ℕ → SpiInput c.dataWidth) :
    run c.next (boundary f m r) w (c.clockDiv + 1) =
      c.next (w c.clockDiv) (ticking c.clockDiv f m r c.clockDiv) := by
  rw [run_succ]
  have last : c.clockDiv = c.clockDiv - 1 + 1 := by omega
  congr 1
  rw [last, half_cycle active positive r div w _ (by omega), ← last]

theorem waiting_run {f : SpiState}
    (waiting : f = .leadingHalfcycles ∨ f = .trailingHalfcycles ∨ f = .idleHalfcycles) (m : ℕ)
    (fits : m < 2 ^ c.counterWidth) (r : ShiftRegister c.dataWidth) (div : 1 ≤ c.clockDiv)
    (w : ℕ → SpiInput c.dataWidth) :
    run c.next (boundary f m r) w (m * (c.clockDiv + 1)) = boundary f 0 r ∧
      ∀ k, k < m * (c.clockDiv + 1) →
        (run c.next (boundary f m r) w k).fsm = f ∧
        0 < (run c.next (boundary f m r) w k).counter := by
  have active : f ≠ .idle := by rcases waiting with rfl | rfl | rfl <;> simp
  induction m generalizing w with
  | zero =>
    refine ⟨by rw [Nat.zero_mul]; rfl, ?_⟩
    intro k before
    omega
  | succ m ih =>
    have some : 0 < m + 1 := by omega
    have ended : run c.next (boundary f (m + 1) r) w (c.clockDiv + 1) = boundary f m r := by
      rw [half_cycle_end active some r div w]
      exact next_waited _ waiting some fits r
    have split : (m + 1) * (c.clockDiv + 1) = (c.clockDiv + 1) + m * (c.clockDiv + 1) := by ring
    obtain ⟨rest, during⟩ := ih (by omega) (shift w (c.clockDiv + 1))
    constructor
    · rw [split, run_add, ended]
      exact rest
    · intro k before
      by_cases first : k ≤ c.clockDiv
      · obtain ⟨fsm, counter, -⟩ := half_cycle_view active some r div w k first
        exact ⟨fsm, by omega⟩
      · have later : k = (c.clockDiv + 1) + (k - (c.clockDiv + 1)) := by omega
        rw [later, run_add, ended]
        exact during _ (by omega)

theorem bit_run {m : ℕ} (positive : 0 < m) (fits : m < 2 ^ c.counterWidth)
    (r : ShiftRegister c.dataWidth) (div : 1 ≤ c.clockDiv) (w : ℕ → SpiInput c.dataWidth) :
    run c.next (boundary .firstHalfcycle m r) w (2 * (c.clockDiv + 1)) =
        boundary .firstHalfcycle (m - 1)
          (r.next false true (w (2 * c.clockDiv + 1)).lsbFirst (w (2 * c.clockDiv + 1)).pdo) ∧
      (∀ k, k ≤ c.clockDiv →
        (run c.next (boundary .firstHalfcycle m r) w k).fsm = .firstHalfcycle ∧
        (run c.next (boundary .firstHalfcycle m r) w k).counter = m ∧
        (run c.next (boundary .firstHalfcycle m r) w k).reg = r) ∧
      (∀ k, c.clockDiv < k → k ≤ 2 * c.clockDiv + 1 →
        (run c.next (boundary .firstHalfcycle m r) w k).fsm = .secondHalfcycle ∧
        (run c.next (boundary .firstHalfcycle m r) w k).reg = r) := by
  have ended : run c.next (boundary .firstHalfcycle m r) w (c.clockDiv + 1) =
      boundary .secondHalfcycle m r := by
    rw [half_cycle_end (by simp) positive r div w]
    exact next_first_over _ positive r
  refine ⟨?_, half_cycle_view (by simp) positive r div w, ?_⟩
  · have split : 2 * (c.clockDiv + 1) = (c.clockDiv + 1) + (c.clockDiv + 1) := by ring
    have last : c.clockDiv + 1 + c.clockDiv = 2 * c.clockDiv + 1 := by ring
    rw [split, run_add, ended, half_cycle_end (by simp) positive r div, shift_apply, last]
    exact next_second_over _ positive fits r
  · intro k after before
    have later : k = (c.clockDiv + 1) + (k - (c.clockDiv + 1)) := by omega
    rw [later, run_add, ended]
    obtain ⟨fsm, -, reg⟩ := half_cycle_view (f := .secondHalfcycle) (by simp) positive r div
      (shift w (c.clockDiv + 1)) (k - (c.clockDiv + 1)) (by omega)
    exact ⟨fsm, reg⟩

/-- The `k`-th bit on the wire. -/
def wireBit {w : ℕ} (lsbFirst : Bool) (word : BitVec w) (k : ℕ) : Bool :=
  if lsbFirst then word.getLsbD k else word.getMsbD k

def wireBits {w : ℕ} (lsbFirst : Bool) (word : BitVec w) : List Bool :=
  (List.range w).map (wireBit lsbFirst word)

/-- The shift register once `k` bits have gone out. -/
def shifted {w : ℕ} (lsbFirst : Bool) (word : BitVec w) (k : ℕ) : ShiftRegister w :=
  let sr := if lsbFirst then word >>> k else word <<< k
  ⟨sr, outgoing lsbFirst sr⟩

theorem shifted_sdo {w : ℕ} (lsbFirst : Bool) (word : BitVec w) (k : ℕ) :
    (shifted lsbFirst word k).sdo = wireBit lsbFirst word k := by
  cases lsbFirst <;> simp [shifted, outgoing, wireBit]

theorem shifted_succ {w : ℕ} (lsbFirst : Bool) (word pdo : BitVec w) (k : ℕ) :
    (shifted lsbFirst word k).next false true lsbFirst pdo = shifted lsbFirst word (k + 1) := by
  cases lsbFirst <;>
    simp [shifted, ShiftRegister.next, ShiftRegister.srNext, BitVec.shiftLeft_add,
      BitVec.shiftRight_add]

/-- The cycle, counted from the start, in which bit `j` begins. -/
def bitStart (c : SpiConfig) (clkPhase : Bool) (j : ℕ) : ℕ :=
  leadingCount c clkPhase * (c.clockDiv + 1) + 2 + j * (2 * (c.clockDiv + 1))

def loadCycle (c : SpiConfig) (clkPhase : Bool) : ℕ :=
  leadingCount c clkPhase * (c.clockDiv + 1) + 1

def csEnd (c : SpiConfig) (clkPhase : Bool) : ℕ :=
  (leadingCount c clkPhase + 2 * c.dataWidth + c.trailingHalfcycles) * (c.clockDiv + 1) + 3

theorem bit_start_zero (c : SpiConfig) (clkPhase : Bool) :
    bitStart c clkPhase 0 = loadCycle c clkPhase + 1 := by
  simp [bitStart, loadCycle]

theorem bit_start_succ (c : SpiConfig) (clkPhase : Bool) (j : ℕ) :
    bitStart c clkPhase (j + 1) = bitStart c clkPhase j + 2 * (c.clockDiv + 1) := by
  simp only [bitStart]
  ring

theorem cs_end_eq (c : SpiConfig) (clkPhase : Bool) :
    csEnd c clkPhase =
      bitStart c clkPhase c.dataWidth + 1 + c.trailingHalfcycles * (c.clockDiv + 1) := by
  simp only [csEnd, bitStart]
  ring

theorem bit_start_mono (c : SpiConfig) (clkPhase : Bool) {i j : ℕ} (le : i ≤ j) :
    bitStart c clkPhase i ≤ bitStart c clkPhase j := by
  have scaled := Nat.mul_le_mul_right (2 * (c.clockDiv + 1)) le
  simp only [bitStart]
  omega

theorem window_exists (c : SpiConfig) (clkPhase : Bool) (n k : ℕ)
    (after : bitStart c clkPhase 0 ≤ k) (before : k < bitStart c clkPhase n) :
    ∃ j < n, bitStart c clkPhase j ≤ k ∧ k < bitStart c clkPhase (j + 1) := by
  induction n with
  | zero => omega
  | succ n ih =>
    by_cases here : bitStart c clkPhase n ≤ k
    · exact ⟨n, Nat.lt_succ_self n, here, before⟩
    · obtain ⟨j, small, window⟩ := ih (by omega)
      exact ⟨j, by omega, window⟩

end Pypga.Migen.SpiTransfer
