/- GID: Pypga/Migen/PulseRetuning
   generality: G
   digest: The endless pulse generator finds its new period from any state it can be in. -/

import Pypga.Migen.PulseTiming

set_option autoImplicit false
set_option relaxedAutoImplicit false

namespace Pypga.Migen.PulseRetuning

open Pypga.Foundation.ClockedMachine (run run_succ run_add shift)
open Pypga.Foundation.FixedWidth (trunc trunc_lt trunc_of_fits)
open Pypga.Migen.Operands
open Pypga.Migen.PulseGenerators
open Pypga.Migen.PulseTiming

/-- The cycles up to the next pulse while the generator is on: the countdown goes on as it was. -/
def delay (s : PulseGen) : ℕ := if s.carry then 1 else s.count + 2

/-- The count fits its signal. -/
def Fits (c : PulseGenConfig) (s : PulseGen) : Prop := s.count < 2 ^ getLength c.period

section Edges

variable {c : PulseGenConfig} {s : PulseGen} (period : ℤ)

theorem delay_pos (s : PulseGen) : 1 ≤ delay s := by
  unfold delay
  split <;> omega

theorem fits_next (on : Bool) : Fits c (c.next period on s) := by
  unfold Fits PulseGenConfig.next
  split
  · exact trunc_lt _ _
  · split
    · exact trunc_lt _ _
    · exact Nat.mod_lt _ (by positivity)

private theorem delay_countdown (fits : Fits c s) (waiting : 1 < delay s) :
    (c.next period true s).out = false ∧ delay (c.next period true s) + 1 = delay s := by
  have quiet : s.carry = false := by
    by_contra carry
    rw [Bool.not_eq_false] at carry
    rw [delay, if_pos carry] at waiting
    omega
  rw [pulsegen_countdown c period s quiet fits]
  simp only [delay, quiet, Bool.false_eq_true, if_false]
  split <;> simp only [Bool.false_eq_true, if_true, if_false, true_and] <;> omega

private theorem delay_ended (ended : delay s = 1) :
    c.next period true s = ⟨true, trunc (getLength c.period) period, false⟩ := by
  have carry : s.carry = true := by
    by_contra quiet
    rw [delay, if_neg quiet] at ended
    omega
  simp [PulseGenConfig.next, carry]

end Edges

def steady (c : PulseGenConfig) {q : ℕ} (fits : q < 2 ^ getLength c.period) : Arguments where
  period := ⟨.signal (getLength c.period) q, q, rfl, by
    have positive := get_length_pos c.period
    have same : getLength (.signal (getLength c.period) (q : ℤ)) = getLength c.period :=
      if_neg (Nat.not_lt.mpr positive)
    rwa [same]⟩
  highAfterOn := c.highAfterOn
  offset := 0
  offset_le := Nat.zero_le q

private theorem next_steady {c : PulseGenConfig} {period : ℤ} {q : ℕ}
    (fits : q < 2 ^ getLength c.period)
    (value : trunc (getLength c.period) period = q) (s : PulseGen) :
    c.next period true s = (steady c fits).config.next q true s := by
  have positive := get_length_pos c.period
  have same : getLength (.signal (getLength c.period) (q : ℤ)) = getLength c.period :=
    if_neg (Nat.not_lt.mpr positive)
  simp only [PulseGenConfig.next, steady, Arguments.config, same, value, trunc_of_fits fits]
  rfl

section Runs

variable {c : PulseGenConfig} {period : ℤ} {q : ℕ} (value : trunc (getLength c.period) period = q)
variable {s : PulseGen}

abbrev held (c : PulseGenConfig) (period : ℤ) (s : PulseGen) : ℕ → PulseGen :=
  run (fun (_ : Unit) => c.next period true) s fun _ => ()

variable (period) in
private theorem held_countdown (fits : Fits c s) {n : ℕ} (before : n < delay s) :
    delay (held c period s n) + n = delay s ∧ Fits c (held c period s n) ∧
      (0 < n → (held c period s n).out = false) := by
  induction n with
  | zero => exact ⟨rfl, fits, fun positive => absurd positive (Nat.lt_irrefl 0)⟩
  | succ n ih =>
    obtain ⟨left, inside, -⟩ := ih (by omega)
    obtain ⟨quiet, down⟩ := delay_countdown period inside (by omega)
    have edge : held c period s (n + 1) = c.next period true (held c period s n) := rfl
    rw [edge]
    exact ⟨by omega, fits_next period true, fun _ => quiet⟩

include value

private theorem held_phase (small : q < 2 ^ getLength c.period) (fits : Fits c s) (n : ℕ) :
    (steady c small).Phase (n % (q + 2)) (held c period s (delay s + n)) ∧
      ((held c period s (delay s + n)).out = true ↔ q + 2 ∣ n) := by
  have same : (steady c small).period.value = q := rfl
  induction n with
  | zero =>
    have positive := delay_pos s
    have before : delay s - 1 < delay s := by omega
    obtain ⟨left, -, -⟩ := held_countdown period fits before
    have ended : delay (held c period s (delay s - 1)) = 1 := by omega
    have last : held c period s (delay s + 0) = ⟨true, q, false⟩ := by
      have here : delay s + 0 = (delay s - 1) + 1 := by omega
      have edge : held c period s (delay s - 1 + 1) =
        c.next period true (held c period s (delay s - 1)) := rfl
      rw [here, edge, delay_ended period ended, value]
    rw [last, Nat.zero_mod, Arguments.Phase, if_pos (Nat.zero_le _)]
    exact ⟨⟨rfl, rfl⟩, iff_of_true rfl (dvd_zero _)⟩
  | succ n ih =>
    have step := (steady c small).next_enabled ih.1
    have edge : held c period s (delay s + (n + 1)) =
      c.next period true (held c period s (delay s + n)) := rfl
    rw [same, Nat.mod_add_mod] at step
    rw [edge, next_steady small value]
    refine ⟨step.1, step.2.trans ?_⟩
    rw [Nat.dvd_iff_mod_eq_zero]
    exact Nat.succ_mod_succ_eq_zero_iff.symm

/-- Whatever the generator was doing: once its period is held and it is on, it finishes the
countdown it is in, and pulses every `period + 2` cycles from then on. -/
theorem retuned_schedule (fits : Fits c s) {n : ℕ} (later : 0 < n) :
    (held c period s n).out = true ↔ delay s ≤ n ∧ q + 2 ∣ n - delay s := by
  by_cases before : n < delay s
  · have quiet := (held_countdown period fits before).2.2 later
    rw [quiet]
    exact iff_of_false Bool.false_ne_true fun after => by omega
  · obtain ⟨m, rfl⟩ : ∃ m, n = delay s + m := ⟨n - delay s, by omega⟩
    rw [(held_phase value (value ▸ trunc_lt _ _) fits m).2, Nat.add_sub_cancel_left]
    exact (and_iff_right (Nat.le_add_right _ _)).symm

end Runs

end Pypga.Migen.PulseRetuning
