/- GID: Pypga/Migen/SpiTiming
   generality: G
   digest: The exact cycles of a transfer, from its start to the next idle cycle, whatever is sent. -/

import Pypga.Migen.SpiWord

set_option autoImplicit false
set_option relaxedAutoImplicit false

namespace Pypga.Migen.SpiTiming

open Pypga.Foundation.ClockedMachine (run run_succ run_add run_related shift Reachable)
open Pypga.Migen.SpiMachine
open Pypga.Migen.SpiLockstep
open Pypga.Migen.SpiTransfer
open Pypga.Migen.SpiWord (Transfer loaded)

variable {c : SpiConfig}

def control {w : ℕ} (s : Spi w) : SpiState × Bool × ℕ × ClockGen := (s.fsm, s.cgStart, s.counter, s.cg)

private theorem control_next {i i' : SpiInput c.dataWidth} {s s' : Spi c.dataWidth}
    (same : control s = control s') (start : i.start = i'.start) (phase : i.clkPhase = i'.clkPhase) :
    control (c.next i s) = control (c.next i' s') := by
  obtain ⟨fsm, cgStart, counter, cg, reg⟩ := s
  obtain ⟨fsm', cgStart', counter', cg', reg'⟩ := s'
  obtain ⟨rfl, rfl, rfl, rfl⟩ : fsm = fsm' ∧ cgStart = cgStart' ∧ counter = counter' ∧ cg = cg' := by
    simpa [control] using same
  cases fsm <;> simp only [control, SpiConfig.next, SpiConfig.act, start, phase]

def msbOnly (w : ℕ → SpiInput c.dataWidth) (k : ℕ) : SpiInput c.dataWidth :=
  { w k with lsbFirst := false }

private theorem control_run (s : Spi c.dataWidth) (w : ℕ → SpiInput c.dataWidth) (k : ℕ) :
    control (run c.next s w k) = control (run c.next s (msbOnly w) k) := by
  apply run_related (fun s s' : Spi c.dataWidth => control s = control s') rfl
  intro n s s' same
  exact control_next same rfl rfl

private theorem fsm_run (s : Spi c.dataWidth) (w : ℕ → SpiInput c.dataWidth) (k : ℕ) :
    (run c.next s w k).fsm = (run c.next s (msbOnly w) k).fsm :=
  congrArg Prod.fst (control_run s w k)

def idleAgain (c : SpiConfig) (clkPhase : Bool) : ℕ :=
  (leadingCount c clkPhase + 2 * c.dataWidth + c.trailingHalfcycles + c.idleHalfcycles) *
    (c.clockDiv + 1) + 5

theorem idle_again_eq (c : SpiConfig) (clkPhase : Bool) :
    idleAgain c clkPhase = csEnd c clkPhase + 1 + c.idleHalfcycles * (c.clockDiv + 1) + 1 := by
  simp only [idleAgain, csEnd]
  ring

section Pause

variable {clkPhase lsbFirst : Bool} {s : Spi c.dataWidth} {w : ℕ → SpiInput c.dataWidth}
variable (t : Transfer c clkPhase lsbFirst s w)
include t

private theorem during_pause (k : ℕ) (after : csEnd c clkPhase < k)
    (before : k < idleAgain c clkPhase) :
    (run c.next s w k).fsm = .idleHalfcycles := by
  have waits := waiting_run (c := c) (.inr (.inr rfl)) _ idle_fits
    (shifted lsbFirst (loaded c clkPhase w) c.dataWidth) t.div
    (shift w (csEnd c clkPhase + 1))
  rw [idle_again_eq] at before
  have later : k = csEnd c clkPhase + 1 + (k - (csEnd c clkPhase + 1)) := by omega
  rw [later, run_add, t.after_trailing]
  rcases Nat.lt_or_eq_of_le (show k - (csEnd c clkPhase + 1) ≤
    c.idleHalfcycles * (c.clockDiv + 1) by omega) with inside | last
  · exact (waits.2 _ inside).1
  · rw [last, waits.1]
    rfl

theorem after_pause : (run c.next s w (idleAgain c clkPhase)).fsm = .idle := by
  have waits := waiting_run (c := c) (.inr (.inr rfl)) _ idle_fits
    (shifted lsbFirst (loaded c clkPhase w) c.dataWidth) t.div
    (shift w (csEnd c clkPhase + 1))
  rw [idle_again_eq, run_succ, run_add, t.after_trailing, waits.1, next_idle_over]
  rfl

theorem selected_at (k : ℕ) (before : k ≤ idleAgain c clkPhase) :
    selected (run c.next s w k).fsm = true ↔ 1 ≤ k ∧ k ≤ csEnd c clkPhase := by
  rcases Nat.lt_or_ge (csEnd c clkPhase) k with after | inside
  · rcases Nat.lt_or_eq_of_le before with pause | rfl
    · rw [during_pause t k after pause]
      exact iff_of_false Bool.false_ne_true (by omega)
    · rw [after_pause t]
      exact iff_of_false Bool.false_ne_true (by omega)
  · have shown := t.cs_at k (by omega)
    rw [act_cs] at shown
    rw [shown, decide_eq_true_iff]

theorem idle_at (k : ℕ) (after : 1 ≤ k) (before : k ≤ idleAgain c clkPhase) :
    (run c.next s w k).fsm = .idle ↔ k = idleAgain c clkPhase := by
  constructor
  · intro idle
    by_contra other
    rcases Nat.lt_or_ge (csEnd c clkPhase) k with pause | inside
    · rw [during_pause t k pause (by omega)] at idle
      cases idle
    · have chosen := (selected_at t k before).mpr ⟨after, inside⟩
      rw [idle] at chosen
      cases chosen
  · rintro rfl
    exact after_pause t

end Pause

/-- A transfer from any reachable idle state takes a number of cycles that depends on nothing but
the constructor arguments and the clock phase. -/
theorem transfer_timing (c : SpiConfig) (width : 2 ≤ c.dataWidth) (div : 1 ≤ c.clockDiv)
    (clkPhase : Bool) (s : Spi c.dataWidth) (reachable : Reachable c.next c.powerUp s)
    (w : ℕ → SpiInput c.dataWidth) (idle : (c.act (w 0) s).idle = true)
    (start : (w 0).start = true) (held : ∀ k, (w k).clkPhase = clkPhase) :
    let leading := if clkPhase then max c.leadingHalfcycles 1 else c.leadingHalfcycles
    let halfcycles := leading + 2 * c.dataWidth + c.trailingHalfcycles
    let again := (c.clockDiv + 1) * (halfcycles + c.idleHalfcycles) + 5
    (∀ k ≤ again, (c.act (w k) (run c.next s w k)).cs = true ↔
      1 ≤ k ∧ k ≤ (c.clockDiv + 1) * halfcycles + 3) ∧
    (∀ k, 1 ≤ k → k ≤ again →
      ((c.act (w k) (run c.next s w k)).idle = true ↔ k = again)) := by
  have count : (if clkPhase then max c.leadingHalfcycles 1 else c.leadingHalfcycles) =
      leadingCount c clkPhase := by
    unfold leadingCount
    split_ifs <;> omega
  have rest : s.fsm = .idle := by
    rw [act_idle] at idle
    simpa using idle
  have t : Transfer c clkPhase false s (msbOnly w) :=
    ⟨by omega, div, reachable_idle (by omega) div reachable rest, start, fun k _ => ⟨held k, rfl⟩⟩
  intro leading halfcycles again
  have last : (c.clockDiv + 1) * halfcycles + 3 = csEnd c clkPhase := by
    simp only [halfcycles, leading, count, csEnd]
    ring
  have next : again = idleAgain c clkPhase := by
    simp only [again, halfcycles, leading, count, idleAgain]
    ring
  rw [last, next]
  refine ⟨?_, ?_⟩
  · intro k before
    rw [act_cs, fsm_run]
    exact selected_at t k before
  · intro k after before
    rw [act_idle, fsm_run, beq_iff_eq]
    exact idle_at t k after before

theorem transfer_timing_two_bits :
    let c : SpiConfig := ⟨2, 1, 0, 0, 1⟩
    let w : ℕ → SpiInput 2 := fun _ => ⟨true, true, false, 2⟩
    ∀ k, 1 ≤ k → k ≤ 17 → ((c.act (w k) (run c.next c.powerUp w k)).idle = true ↔ k = 17) := by
  intro c w
  exact (transfer_timing c (by decide) (by decide) true c.powerUp .initial w rfl rfl
    fun _ => rfl).2

end Pypga.Migen.SpiTiming
