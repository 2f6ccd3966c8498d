/- GID: Pypga/Migen/SpiWord
   generality: G
   digest: From every reachable idle state a transfer pulses the clock once per bit and sends the loaded word. -/

import Pypga.Migen.SpiTransfer

set_option autoImplicit false
set_option relaxedAutoImplicit false

namespace Pypga.Migen.SpiWord

open Pypga.Foundation.ClockedMachine (run run_succ run_add shift shift_apply Reachable)
open Pypga.Foundation.Waveform
open Pypga.Migen.SpiMachine
open Pypga.Migen.SpiLockstep
open Pypga.Migen.SpiTransfer

/-- A transfer: the machine rests, is started, and the two settings are held until the chip
is released. Nothing is assumed of `pdo`, nor of `start` after the first cycle. -/
structure Transfer (c : SpiConfig) (clkPhase lsbFirst : Bool) (s : Spi c.dataWidth)
    (w : ℕ → SpiInput c.dataWidth) : Prop where
  width : 0 < c.dataWidth
  div : 1 ≤ c.clockDiv
  rest : s = boundary .idle 0 s.reg
  start : (w 0).start = true
  held : ∀ k, k ≤ csEnd c clkPhase → (w k).clkPhase = clkPhase ∧ (w k).lsbFirst = lsbFirst

variable {c : SpiConfig} {clkPhase lsbFirst : Bool} {s : Spi c.dataWidth}
  {w : ℕ → SpiInput c.dataWidth}

def loaded (c : SpiConfig) (clkPhase : Bool) (w : ℕ → SpiInput c.dataWidth) :
    BitVec c.dataWidth := (w (loadCycle c clkPhase)).pdo

/-- The clock line in cycle `k`. -/
def clkLine (c : SpiConfig) (s : Spi c.dataWidth) (w : ℕ → SpiInput c.dataWidth) (k : ℕ) : Bool :=
  (c.act (w k) (run c.next s w k)).clk

/-- The data line in cycle `k`. -/
def sdoLine (c : SpiConfig) (s : Spi c.dataWidth) (w : ℕ → SpiInput c.dataWidth) (k : ℕ) : Bool :=
  (run c.next s w k).reg.sdo

/-- Data is sampled at rising edges of the clock in phase 0 and at falling edges in phase 1. -/
def sampling (clkPhase : Bool) (clk : ℕ → Bool) : ℕ → Bool :=
  if clkPhase then falling clk else rising clk

private theorem sampling_of_low {clkPhase : Bool} {clk : ℕ → Bool} {k : ℕ} (here : clk k = false)
    (prior : clk (k - 1) = false) : sampling clkPhase clk k = false := by
  cases clkPhase <;> simp [sampling, rising, falling, here, prior]

namespace Transfer

variable (c clkPhase) in
theorem bit_start_le (j : ℕ) (small : j ≤ c.dataWidth) :
    bitStart c clkPhase j + 1 ≤ csEnd c clkPhase := by
  have mono := bit_start_mono c clkPhase small
  rw [cs_end_eq]
  omega

variable (t : Transfer c clkPhase lsbFirst s w)
include t

private theorem first_leading : run c.next s w 1 =
    boundary .leadingHalfcycles (leadingCount c clkPhase) s.reg := by
  have phase := (t.held 0 (Nat.zero_le _)).1
  rw [run_succ, run, t.rest, next_idle_start _ _ t.start, phase]
  rfl

private theorem leading_over : run c.next s w (loadCycle c clkPhase) =
    boundary .leadingHalfcycles 0 s.reg := by
  rw [loadCycle, Nat.add_comm, run_add, t.first_leading]
  exact (waiting_run (.inl rfl) _ (leading_fits clkPhase) _ t.div _).1

private theorem during_leading (k : ℕ) (after : 1 ≤ k) (before : k < loadCycle c clkPhase) :
    (run c.next s w k).fsm = .leadingHalfcycles ∧ 0 < (run c.next s w k).counter := by
  have later : k = 1 + (k - 1) := by omega
  rw [later, run_add, t.first_leading]
  rw [loadCycle] at before
  exact (waiting_run (.inl rfl) _ (leading_fits clkPhase) _ t.div _).2 (k - 1) (by omega)

private theorem at_bit (j : ℕ) (small : j ≤ c.dataWidth) :
    run c.next s w (bitStart c clkPhase j) =
      boundary .firstHalfcycle (c.dataWidth - j) (shifted lsbFirst (loaded c clkPhase w) j) := by
  induction j with
  | zero =>
    have short := bit_start_le c clkPhase 0 (Nat.zero_le _)
    rw [bit_start_zero] at short
    have order := (t.held (loadCycle c clkPhase) (by omega)).2
    rw [bit_start_zero, run_succ, t.leading_over, next_leading_over _ _ t.width, order]
    cases lsbFirst <;> simp [shifted, loaded]
  | succ j ih =>
    have short := bit_start_le c clkPhase (j + 1) small
    have fits := data_width_fits (c := c)
    have step := bit_start_succ c clkPhase j
    have order := (t.held (bitStart c clkPhase j + (2 * c.clockDiv + 1)) (by omega)).2
    rw [step, run_add, ih (by omega), (bit_run (by omega) (by omega) _ t.div _).1, shift_apply,
      order, shifted_succ]
    congr 1

private theorem during_first (j : ℕ) (small : j < c.dataWidth) (k : ℕ)
    (after : bitStart c clkPhase j ≤ k) (before : k ≤ bitStart c clkPhase j + c.clockDiv) :
    (run c.next s w k).fsm = .firstHalfcycle ∧ 0 < (run c.next s w k).counter ∧
      (run c.next s w k).reg = shifted lsbFirst (loaded c clkPhase w) j := by
  have fits := data_width_fits (c := c)
  have later : k = bitStart c clkPhase j + (k - bitStart c clkPhase j) := by omega
  rw [later, run_add, t.at_bit j small.le]
  obtain ⟨fsm, counter, reg⟩ := (bit_run (m := c.dataWidth - j) (by omega) (by omega)
    (shifted lsbFirst (loaded c clkPhase w) j) t.div
    (shift w (bitStart c clkPhase j))).2.1 (k - bitStart c clkPhase j) (by omega)
  exact ⟨fsm, by omega, reg⟩

private theorem during_second (j : ℕ) (small : j < c.dataWidth) (k : ℕ)
    (after : bitStart c clkPhase j + c.clockDiv < k) (before : k < bitStart c clkPhase (j + 1)) :
    (run c.next s w k).fsm = .secondHalfcycle ∧
      (run c.next s w k).reg = shifted lsbFirst (loaded c clkPhase w) j := by
  have fits := data_width_fits (c := c)
  have step := bit_start_succ c clkPhase j
  have later : k = bitStart c clkPhase j + (k - bitStart c clkPhase j) := by omega
  rw [later, run_add, t.at_bit j small.le]
  exact (bit_run (m := c.dataWidth - j) (by omega) (by omega)
    (shifted lsbFirst (loaded c clkPhase w) j) t.div
    (shift w (bitStart c clkPhase j))).2.2 (k - bitStart c clkPhase j) (by omega) (by omega)

private theorem first_trailing : run c.next s w (bitStart c clkPhase c.dataWidth + 1) =
    boundary .trailingHalfcycles c.trailingHalfcycles
      (shifted lsbFirst (loaded c clkPhase w) c.dataWidth) := by
  rw [run_succ, t.at_bit c.dataWidth le_rfl, Nat.sub_self]
  exact next_word_over _ _

private theorem during_trailing (k : ℕ) (after : bitStart c clkPhase c.dataWidth < k)
    (before : k ≤ csEnd c clkPhase) : (run c.next s w k).fsm = .trailingHalfcycles := by
  have later : k = bitStart c clkPhase c.dataWidth + 1 +
      (k - (bitStart c clkPhase c.dataWidth + 1)) := by omega
  have waits := waiting_run (c := c) (.inr (.inl rfl)) _ trailing_fits
    (shifted lsbFirst (loaded c clkPhase w) c.dataWidth) t.div
    (shift w (bitStart c clkPhase c.dataWidth + 1))
  rw [cs_end_eq] at before
  rw [later, run_add, t.first_trailing]
  rcases Nat.lt_or_eq_of_le (show k - (bitStart c clkPhase c.dataWidth + 1) ≤
    c.trailingHalfcycles * (c.clockDiv + 1) by omega) with inside | last
  · exact (waits.2 _ inside).1
  · rw [last, waits.1]
    rfl

theorem after_trailing : run c.next s w (csEnd c clkPhase + 1) =
    boundary .idleHalfcycles c.idleHalfcycles
      (shifted lsbFirst (loaded c clkPhase w) c.dataWidth) := by
  have waits := waiting_run (c := c) (.inr (.inl rfl)) _ trailing_fits
    (shifted lsbFirst (loaded c clkPhase w) c.dataWidth) t.div
    (shift w (bitStart c clkPhase c.dataWidth + 1))
  rw [run_succ, cs_end_eq, run_add, t.first_trailing, waits.1]
  exact next_trailing_over _ _

theorem cs_at (k : ℕ) (before : k ≤ csEnd c clkPhase + 1) :
    (c.act (w k) (run c.next s w k)).cs = decide (1 ≤ k ∧ k ≤ csEnd c clkPhase) := by
  rw [act_cs]
  by_cases zero : k = 0
  · subst zero
    rw [run, t.rest]
    simp [boundary, selected]
  by_cases past : k = csEnd c clkPhase + 1
  · subst past
    rw [t.after_trailing]
    simp [boundary, selected]
  have inside : 1 ≤ k ∧ k ≤ csEnd c clkPhase := by omega
  rw [decide_eq_true inside]
  have origin := bit_start_zero c clkPhase
  rcases Nat.lt_trichotomy k (loadCycle c clkPhase) with leading | rfl | after
  · rw [(t.during_leading k inside.1 leading).1]
    rfl
  · rw [t.leading_over]
    rfl
  · rcases Nat.lt_trichotomy k (bitStart c clkPhase c.dataWidth) with bits | rfl | trailing
    · obtain ⟨j, small, here, there⟩ := window_exists c clkPhase c.dataWidth k (by omega) bits
      by_cases half : k ≤ bitStart c clkPhase j + c.clockDiv
      · rw [(t.during_first j small k here half).1]
        rfl
      · rw [(t.during_second j small k (by omega) there).1]
        rfl
    · rw [t.at_bit c.dataWidth le_rfl]
      rfl
    · rw [t.during_trailing k trailing inside.2]
      rfl

private theorem clk_before (k : ℕ) (before : k < bitStart c clkPhase 0) :
    clkLine c s w k = false := by
  rw [clkLine, act_clk]
  rw [bit_start_zero] at before
  by_cases zero : k = 0
  · subst zero
    rw [run, t.rest]
    rfl
  rcases Nat.lt_or_eq_of_le (Nat.le_of_lt_succ before) with leading | rfl
  · rw [(t.during_leading k (by omega) leading).1]
  · rw [t.leading_over]
    rfl

private theorem clk_first (j : ℕ) (small : j < c.dataWidth) (k : ℕ)
    (after : bitStart c clkPhase j ≤ k)
    (before : k ≤ bitStart c clkPhase j + c.clockDiv) : clkLine c s w k = clkPhase := by
  have short := bit_start_le c clkPhase (j + 1) small
  have step := bit_start_succ c clkPhase j
  obtain ⟨fsm, counter, -⟩ := t.during_first j small k after before
  have phase := (t.held k (by omega)).1
  rw [clkLine, act_clk, fsm]
  simp [phase, counter]

private theorem clk_second (j : ℕ) (small : j < c.dataWidth) (k : ℕ)
    (after : bitStart c clkPhase j + c.clockDiv < k) (before : k < bitStart c clkPhase (j + 1)) :
    clkLine c s w k = !clkPhase := by
  have short := bit_start_le c clkPhase (j + 1) small
  have phase := (t.held k (by omega)).1
  rw [clkLine, act_clk, (t.during_second j small k after before).1]
  simp [phase]

private theorem clk_after (k : ℕ) (after : bitStart c clkPhase c.dataWidth ≤ k)
    (before : k ≤ csEnd c clkPhase) : clkLine c s w k = false := by
  rw [clkLine, act_clk]
  rcases Nat.eq_or_lt_of_le after with rfl | trailing
  · rw [t.at_bit c.dataWidth le_rfl]
    simp [boundary]
  · rw [t.during_trailing k trailing before]

private theorem init_at (k : ℕ) (after : 1 ≤ k) (before : k ≤ csEnd c clkPhase) :
    (c.act (w k) (run c.next s w k)).init = true ↔ k = loadCycle c clkPhase := by
  rw [act_init]
  have origin := bit_start_zero c clkPhase
  rcases Nat.lt_trichotomy k (loadCycle c clkPhase) with leading | rfl | later
  · obtain ⟨fsm, counter⟩ := t.during_leading k after leading
    simp [fsm, leading.ne, counter.ne']
  · rw [t.leading_over]
    simp [boundary]
  · have other : (run c.next s w k).fsm ≠ .leadingHalfcycles := by
      rcases Nat.lt_trichotomy k (bitStart c clkPhase c.dataWidth) with bits | rfl | trailing
      · obtain ⟨j, small, here, there⟩ := window_exists c clkPhase c.dataWidth k (by omega) bits
        by_cases half : k ≤ bitStart c clkPhase j + c.clockDiv
        · rw [(t.during_first j small k here half).1]
          simp
        · rw [(t.during_second j small k (by omega) there).1]
          simp
      · rw [t.at_bit c.dataWidth le_rfl]
        simp [boundary]
      · rw [t.during_trailing k trailing before]
        simp
    simp [other, later.ne']

private theorem sampling_before :
    times (sampling clkPhase (clkLine c s w)) 1 (bitStart c clkPhase 0) = [] := by
  apply times_eq_nil
  intro k after before
  exact sampling_of_low (t.clk_before k before) (t.clk_before (k - 1) (by omega))

private theorem sampling_after : times (sampling clkPhase (clkLine c s w))
    (bitStart c clkPhase c.dataWidth)
    (csEnd c clkPhase + 1) = [] := by
  apply times_eq_nil
  intro k after before
  have mono := bit_start_mono c clkPhase (Nat.zero_le c.dataWidth)
  have here := t.clk_after k after (by omega)
  rcases Nat.eq_or_lt_of_le after with rfl | later
  · obtain ⟨n, size⟩ : ∃ n, c.dataWidth = n + 1 := ⟨c.dataWidth - 1, by have := t.width; omega⟩
    have step := bit_start_succ c clkPhase n
    rw [size] at here ⊢
    have prior := t.clk_second n (by omega) (bitStart c clkPhase (n + 1) - 1) (by omega) (by omega)
    cases clkPhase <;> simp [sampling, rising, falling, here, prior]
  · exact sampling_of_low here (t.clk_after (k - 1) (by omega) (by omega))

private theorem sampling_middle (j : ℕ) (small : j < c.dataWidth) :
    sampling clkPhase (clkLine c s w) (bitStart c clkPhase j + (c.clockDiv + 1)) = true := by
  have step := bit_start_succ c clkPhase j
  have here := t.clk_second j small (bitStart c clkPhase j + (c.clockDiv + 1)) (by omega) (by omega)
  have prior := t.clk_first j small (bitStart c clkPhase j + c.clockDiv) (by omega) le_rfl
  cases clkPhase <;> simp [sampling, rising, falling, here, prior]

private theorem sampling_elsewhere (j : ℕ) (small : j < c.dataWidth) (k : ℕ)
    (after : bitStart c clkPhase j ≤ k)
    (before : k < bitStart c clkPhase (j + 1)) (other : k ≠ bitStart c clkPhase j + (c.clockDiv + 1)) :
    sampling clkPhase (clkLine c s w) k = false := by
  have step := bit_start_succ c clkPhase j
  by_cases half : k ≤ bitStart c clkPhase j + c.clockDiv
  · have here := t.clk_first j small k after half
    cases clkPhase <;> simp [sampling, rising, falling, here]
  · have here := t.clk_second j small k (by omega) before
    have prior := t.clk_second j small (k - 1) (by omega) (by omega)
    cases clkPhase
    · simp [sampling, rising, prior]
    · simp [sampling, falling, prior]

theorem sampling_times :
    times (sampling clkPhase (clkLine c s w)) 1 (csEnd c clkPhase + 1) =
      (List.range c.dataWidth).map fun j => bitStart c clkPhase j + (c.clockDiv + 1) := by
  have last := bit_start_le c clkPhase c.dataWidth le_rfl
  have origin := bit_start_zero c clkPhase
  have mono := bit_start_mono c clkPhase (Nat.zero_le c.dataWidth)
  have load : 1 ≤ loadCycle c clkPhase := Nat.le_add_left 1 _
  rw [times_split (bitStart c clkPhase 0) (by omega) (by omega), t.sampling_before,
    times_split (bitStart c clkPhase c.dataWidth) (by omega) (by omega), t.sampling_after,
    List.nil_append, List.append_nil]
  apply times_windows
  · intro j small
    have step := bit_start_succ c clkPhase j
    omega
  · exact t.sampling_middle
  · exact t.sampling_elsewhere

theorem sdo_at_sampling (j : ℕ) (small : j < c.dataWidth) :
    sdoLine c s w (bitStart c clkPhase j + (c.clockDiv + 1)) =
        wireBit lsbFirst (loaded c clkPhase w) j ∧
      sdoLine c s w (bitStart c clkPhase j + (c.clockDiv + 1) - 1) =
        wireBit lsbFirst (loaded c clkPhase w) j := by
  have step := bit_start_succ c clkPhase j
  obtain ⟨-, here⟩ := t.during_second j small (bitStart c clkPhase j + (c.clockDiv + 1))
    (by omega) (by omega)
  obtain ⟨-, -, prior⟩ := t.during_first j small (bitStart c clkPhase j + (c.clockDiv + 1) - 1)
    (by omega) (by omega)
  rw [sdoLine, sdoLine, here, prior, shifted_sdo]
  exact ⟨rfl, rfl⟩

private theorem clock_edges :
    (times (rising (clkLine c s w)) 1 (csEnd c clkPhase + 1)).length = c.dataWidth ∧
      (times (falling (clkLine c s w)) 1 (csEnd c clkPhase + 1)).length = c.dataWidth := by
  have balance := edges_balance (clkLine c s w) 0 (csEnd c clkPhase)
  have origin := bit_start_zero c clkPhase
  have opened := t.clk_before 0 (by omega)
  have closed := t.clk_after (csEnd c clkPhase)
    (by have := bit_start_le c clkPhase c.dataWidth le_rfl; omega) le_rfl
  rw [Nat.zero_add, Nat.zero_add, opened, closed] at balance
  have sampled := congrArg List.length t.sampling_times
  rw [List.length_map, List.length_range] at sampled
  cases clkPhase <;> simp only [sampling, if_true, Bool.false_eq_true, if_false] at sampled <;>
    omega

end Transfer

/-- A transfer started from any reachable idle state. While the chip is selected the clock has
one pulse per bit, the word is loaded once, and its bits stand on the data line at the sampling
edges in the requested order; the clock is low whenever the chip is not selected. -/
theorem transfer_sends_word (c : SpiConfig) (width : 2 ≤ c.dataWidth) (div : 1 ≤ c.clockDiv)
    (clkPhase lsbFirst : Bool) (s : Spi c.dataWidth) (reachable : Reachable c.next c.powerUp s)
    (w : ℕ → SpiInput c.dataWidth) (idle : (c.act (w 0) s).idle = true)
    (start : (w 0).start = true)
    (held : ∀ k, k ≤ csEnd c clkPhase →
      (w k).clkPhase = clkPhase ∧ (w k).lsbFirst = lsbFirst) :
    (∀ k, k ≤ csEnd c clkPhase + 1 →
      (c.act (w k) (run c.next s w k)).cs = decide (1 ≤ k ∧ k ≤ csEnd c clkPhase)) ∧
    (times (rising (clkLine c s w)) 1 (csEnd c clkPhase + 1)).length = c.dataWidth ∧
    (times (falling (clkLine c s w)) 1 (csEnd c clkPhase + 1)).length = c.dataWidth ∧
    (∃ i, 1 ≤ i ∧ i ≤ csEnd c clkPhase ∧
      (∀ k, 1 ≤ k → k ≤ csEnd c clkPhase →
        ((c.act (w k) (run c.next s w k)).init = true ↔ k = i)) ∧
      (times (sampling clkPhase (clkLine c s w)) 1 (csEnd c clkPhase + 1)).map (sdoLine c s w) =
        wireBits lsbFirst (w i).pdo) ∧
    (∀ k ∈ times (sampling clkPhase (clkLine c s w)) 1 (csEnd c clkPhase + 1),
      sdoLine c s w (k - 1) = sdoLine c s w k) ∧
    (∀ (i : SpiInput c.dataWidth) (s : Spi c.dataWidth),
      (c.act i s).cs = false → (c.act i s).clk = false) := by
  have rest : s.fsm = .idle := by
    rw [act_idle] at idle
    simpa using idle
  have t : Transfer c clkPhase lsbFirst s w :=
    ⟨by omega, div, reachable_idle (by omega) div reachable rest, start, held⟩
  have short := Transfer.bit_start_le c clkPhase 0 (Nat.zero_le _)
  rw [bit_start_zero] at short
  refine ⟨t.cs_at, t.clock_edges.1, t.clock_edges.2,
    ⟨loadCycle c clkPhase, Nat.le_add_left 1 _, by omega, t.init_at, ?_⟩, ?_,
    clk_low_of_cs_low c⟩
  · rw [t.sampling_times, List.map_map, wireBits]
    apply List.map_congr_left
    intro j member
    exact (t.sdo_at_sampling j (List.mem_range.mp member)).1
  · intro k member
    rw [t.sampling_times] at member
    obtain ⟨j, small, rfl⟩ := List.mem_map.mp member
    obtain ⟨here, prior⟩ := t.sdo_at_sampling j (List.mem_range.mp small)
    exact prior.trans here.symm

theorem transfer_sends_word_two_bits :
    let c : SpiConfig := ⟨2, 1, 0, 0, 0⟩
    let w : ℕ → SpiInput 2 := fun _ => ⟨true, false, false, 2⟩
    (times (sampling false (clkLine c c.powerUp w)) 1 (csEnd c false + 1)).map
      (sdoLine c c.powerUp w) = [true, false] := by
  intro c w
  obtain ⟨i, -, -, -, sent⟩ := (transfer_sends_word c (by decide) (by decide) false false
    c.powerUp .initial w rfl rfl fun _ _ => ⟨rfl, rfl⟩).2.2.2.1
  exact sent.trans (show wireBits false (2 : BitVec 2) = [true, false] by decide)

end Pypga.Migen.SpiWord
