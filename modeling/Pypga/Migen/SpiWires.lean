/- GID: Pypga/Migen/SpiWires
   generality: G
   digest: The wires of the SPI module during a transfer, against the options it was built with. -/

import Pypga.Migen.SpiTiming

set_option autoImplicit false
set_option relaxedAutoImplicit false

namespace Pypga.Migen.SpiWires

open Pypga.Foundation.ClockedMachine (run Reachable)
open Pypga.Foundation.Waveform
open Pypga.Migen.SpiMachine
open Pypga.Migen.SpiLockstep
open Pypga.Migen.SpiTransfer
open Pypga.Migen.SpiWord (Transfer)
open Pypga.Migen.SpiTiming (idleAgain selected_at)

/-- Constructor arguments of `MigenSPI`, apart from the two signals of each transfer. -/
structure Arguments where
  cs : ℕ := 0
  dataWidth : ℕ := 32
  csWidth : ℕ := 1
  csPolarity : Bool := false
  clockDiv : ℕ := 32
  clockPolarity : Bool := false
  clockPhase : Bool := false
  lsbFirst : Bool := false
  leadingHalfcycles : ℕ := 1
  trailingHalfcycles : ℕ := 1
  idleHalfcycles : ℕ := 1

structure MigenSPI extends Arguments where
  wide : 16 < dataWidth

def create (a : Arguments) : Except String MigenSPI :=
  if wide : 16 < a.dataWidth then .ok ⟨a, wide⟩
  else .error "This module does not support data_width < 17 bits."

/-- Every module comes from its own arguments. -/
theorem create_eq_ok (a : Arguments) (m : MigenSPI) : create a = .ok m ↔ m.toArguments = a := by
  unfold create
  split_ifs with wide
  · constructor
    · intro built
      cases built
      rfl
    · rintro rfl
      rfl
  · refine iff_of_false (by simp) ?_
    rintro rfl
    exact wide m.wide

structure Input (width : ℕ) where
  start : Bool
  data : BitVec width

structure Wires (csWidth : ℕ) where
  mosi : Bool
  clk : Bool
  cs : BitVec csWidth
  busy : Bool
  deriving DecidableEq

namespace MigenSPI

variable (m : MigenSPI)

def spi : SpiConfig where
  dataWidth := m.dataWidth
  clockDiv := m.clockDiv
  leadingHalfcycles := m.leadingHalfcycles
  trailingHalfcycles := m.trailingHalfcycles
  idleHalfcycles := m.idleHalfcycles

/-- What the transfer machine sees. No statement of the constructor drives the direction of its
shift register, which stays low whatever `lsb_first` is. -/
def spiInput (i : Input m.dataWidth) : SpiInput m.spi.dataWidth where
  start := i.start
  clkPhase := m.clockPhase
  lsbFirst := false
  pdo := i.data

def next (i : Input m.dataWidth) (s : Spi m.spi.dataWidth) : Spi m.spi.dataWidth :=
  m.spi.next (m.spiInput i) s

def wires (i : Input m.dataWidth) (s : Spi m.spi.dataWidth) : Wires m.csWidth :=
  let drive := m.spi.act (m.spiInput i) s
  { mosi := s.reg.sdo
    clk := drive.clk ^^ m.clockPolarity
    cs := (BitVec.fill m.csWidth drive.cs &&& (BitVec.ofNat m.csWidth 1 <<< m.cs)) ^^^
      BitVec.fill m.csWidth m.csPolarity
    busy := !drive.idle }

/-- The wires in cycle `k`. -/
def wiresAt (s : Spi m.spi.dataWidth) (w : ℕ → Input m.dataWidth) (k : ℕ) : Wires m.csWidth :=
  m.wires (w k) (run m.next s w k)

/-- A receiver samples at the second edge of each clock pulse if the phase is set, else at the
first; a pulse leaves the idle level of the clock and returns to it. -/
def sampling (clk : ℕ → Bool) : ℕ → Bool :=
  if m.clockPhase ^^ m.clockPolarity then falling clk else rising clk

/-- The wires carry a word to one chip in one transfer: the bits in an order, the clock at a level
outside the transfer, and no chip but one at the level of a selected chip. -/
structure Carries (lsbFirst clkIdle csActive : Bool) (s : Spi m.spi.dataWidth)
    (w : ℕ → Input m.dataWidth) (word : BitVec m.dataWidth) : Prop where
  order : (times (m.sampling fun k => (m.wiresAt s w k).clk) 1 (csEnd m.spi m.clockPhase + 1)).map
    (fun k => (m.wiresAt s w k).mosi) = wireBits lsbFirst word
  clkOutside : ∀ k ≤ idleAgain m.spi m.clockPhase, ¬ (1 ≤ k ∧ k ≤ csEnd m.spi m.clockPhase) →
    (m.wiresAt s w k).clk = clkIdle
  chip : ∀ k ≤ idleAgain m.spi m.clockPhase, ∀ j < m.csWidth,
    ((m.wiresAt s w k).cs.getLsbD j = csActive ↔
      (1 ≤ k ∧ k ≤ csEnd m.spi m.clockPhase) ∧ j = m.cs)
  rest : ∀ k, (m.wiresAt s w k).busy = false →
    (m.wiresAt s w k).clk = clkIdle ∧ ∀ j < m.csWidth, (m.wiresAt s w k).cs.getLsbD j = !csActive

variable {m}

theorem run_eq (s : Spi m.spi.dataWidth) (w : ℕ → Input m.dataWidth) (k : ℕ) :
    run m.next s w k = run m.spi.next s (fun n => m.spiInput (w n)) k := by
  induction k with
  | zero => rfl
  | succ k ih => exact congrArg (m.spi.next (m.spiInput (w k))) ih

theorem reachable_spi {s : Spi m.spi.dataWidth} (reachable : Reachable m.next m.spi.powerUp s) :
    Reachable m.spi.next m.spi.powerUp s := by
  induction reachable with
  | initial => exact .initial
  | step i _ ih => exact ih.step (m.spiInput i)

theorem cs_level (i : Input m.dataWidth) (s : Spi m.spi.dataWidth) {j : ℕ} (wire : j < m.csWidth) :
    (m.wires i s).cs.getLsbD j = ((selected s.fsm && decide (j = m.cs)) ^^ m.csPolarity) := by
  have mask : (BitVec.ofNat m.csWidth 1 <<< m.cs).getLsbD j = decide (j = m.cs) := by
    rw [BitVec.getLsbD_shiftLeft, BitVec.getLsbD_one]
    apply Bool.eq_iff_iff.mpr
    simp only [Bool.and_eq_true, Bool.not_eq_true', decide_eq_true_iff, decide_eq_false_iff_not]
    omega
  simp only [wires, BitVec.getLsbD_xor, BitVec.getLsbD_and, mask, BitVec.getLsbD_fill, wire,
    decide_true, Bool.and_true, act_cs]

theorem busy_eq (i : Input m.dataWidth) (s : Spi m.spi.dataWidth) :
    (m.wires i s).busy = !(s.fsm == .idle) := by
  simp only [wires, act_idle]

private theorem clk_of_unselected (i : Input m.dataWidth) {s : Spi m.spi.dataWidth}
    (unselected : selected s.fsm = false) : (m.wires i s).clk = m.clockPolarity := by
  have low := clk_low_of_cs_low m.spi (m.spiInput i) s (by rw [act_cs, unselected])
  simp only [wires, low, Bool.false_bne]

private theorem sampling_eq (clk : ℕ → Bool) :
    (m.sampling fun k => clk k ^^ m.clockPolarity) = SpiWord.sampling m.clockPhase clk := by
  ext k
  unfold sampling SpiWord.sampling
  cases m.clockPhase <;> cases m.clockPolarity <;> simp [rising, falling]

section Started

variable {s : Spi m.spi.dataWidth} {w : ℕ → Input m.dataWidth} {word : BitVec m.dataWidth}

theorem transfer (div : 1 ≤ m.clockDiv) (reachable : Reachable m.next m.spi.powerUp s)
    (idle : (m.wires (w 0) s).busy = false) (start : (w 0).start = true) :
    Transfer m.spi m.clockPhase false s fun n => m.spiInput (w n) := by
  have rest : s.fsm = .idle := by
    rw [busy_eq] at idle
    simpa using idle
  have width : 0 < m.spi.dataWidth := Nat.zero_lt_of_lt m.wide
  exact ⟨width, div, reachable_idle width div (reachable_spi reachable) rest, start,
    fun _ _ => ⟨rfl, rfl⟩⟩

variable (t : Transfer m.spi m.clockPhase false s fun n => m.spiInput (w n))
include t

theorem sampled_order :
    (times (m.sampling fun k => (m.wiresAt s w k).clk) 1 (csEnd m.spi m.clockPhase + 1)).map
      (fun k => (m.wiresAt s w k).mosi) = wireBits false (w (loadCycle m.spi m.clockPhase)).data := by
  have clock : (fun k => (m.wiresAt s w k).clk) = fun k =>
      SpiWord.clkLine m.spi s (fun n => m.spiInput (w n)) k ^^ m.clockPolarity := by
    ext k
    rw [wiresAt, run_eq]
    rfl
  rw [clock, sampling_eq, t.sampling_times, List.map_map, wireBits]
  apply List.map_congr_left
  intro j member
  have bit := (t.sdo_at_sampling j (List.mem_range.mp member)).1
  rw [Function.comp_apply, wiresAt, run_eq]
  exact bit

omit t in
theorem load_before_end : loadCycle m.spi m.clockPhase ≤ csEnd m.spi m.clockPhase := by
  have short := Transfer.bit_start_le m.spi m.clockPhase 0 (Nat.zero_le _)
  rw [bit_start_zero] at short
  omega

private theorem order_at (held : ∀ k ≤ csEnd m.spi m.clockPhase, (w k).data = word) :
    (times (m.sampling fun k => (m.wiresAt s w k).clk) 1 (csEnd m.spi m.clockPhase + 1)).map
      (fun k => (m.wiresAt s w k).mosi) = wireBits false word := by
  rw [sampled_order t, held _ load_before_end]

theorem selected_iff {k : ℕ} (before : k ≤ idleAgain m.spi m.clockPhase) :
    selected (run m.next s w k).fsm = true ↔ 1 ≤ k ∧ k ≤ csEnd m.spi m.clockPhase := by
  rw [run_eq]
  exact selected_at t k before

private theorem carries_instead (held : ∀ k ≤ csEnd m.spi m.clockPhase, (w k).data = word) :
    m.Carries false m.clockPolarity (!m.csPolarity) s w word where
  order := order_at t held
  clkOutside := by
    intro k before outside
    apply clk_of_unselected
    rw [← selected_iff t before] at outside
    simpa using outside
  chip := by
    intro k before j wire
    rw [wiresAt, cs_level _ _ wire, ← selected_iff t before]
    cases m.csPolarity <;> simp
  rest := by
    intro k quiet
    rw [wiresAt, busy_eq] at quiet
    have unselected : selected (run m.next s w k).fsm = false := by
      have idle : (run m.next s w k).fsm = .idle := by simpa using quiet
      rw [idle]
      rfl
    refine ⟨clk_of_unselected _ unselected, ?_⟩
    intro j wire
    rw [wiresAt, cs_level _ _ wire, unselected]
    simp

end Started

/-- No transfer honours the options of the module: the levels of the select wires are exchanged.
With these exchanged it would honour them if and only if the bits are asked for from the highest,
or the word reads the same from both ends. -/
theorem wires_never_honour (m : MigenSPI) (div : 1 ≤ m.clockDiv) (chip : m.cs < m.csWidth)
    (s : Spi m.spi.dataWidth) (reachable : Reachable m.next m.spi.powerUp s)
    (w : ℕ → Input m.dataWidth) (word : BitVec m.dataWidth)
    (idle : (m.wires (w 0) s).busy = false) (start : (w 0).start = true)
    (held : ∀ k ≤ csEnd m.spi m.clockPhase, (w k).data = word) :
    ¬ m.Carries m.lsbFirst m.clockPolarity m.csPolarity s w word ∧
    m.Carries false m.clockPolarity (!m.csPolarity) s w word ∧
    (m.Carries m.lsbFirst m.clockPolarity (!m.csPolarity) s w word ↔
      m.lsbFirst = false ∨ wireBits true word = wireBits false word) := by
  have t := transfer div reachable idle start
  have instead := carries_instead t held
  refine ⟨?_, instead, ?_⟩
  · intro honoured
    -- already the wire of the chip before the transfer
    have before := (instead.rest 0 idle).2 m.cs chip
    rw [Bool.not_not] at before
    have inside := (honoured.chip 0 (Nat.zero_le _) m.cs chip).mp before
    omega
  · constructor
    · intro honoured
      cases order : m.lsbFirst with
      | false => exact .inl rfl
      | true =>
        rw [order] at honoured
        exact .inr (honoured.order.symm.trans instead.order)
    · rintro (highest | symmetric)
      · rw [highest]
        exact instead
      · refine ⟨?_, instead.clkOutside, instead.chip, instead.rest⟩
        rw [instead.order]
        cases m.lsbFirst
        · rfl
        · exact symmetric.symm

def oneChip : MigenSPI :=
  ⟨{ csPolarity := true, dataWidth := 24, clockDiv := 2, clockPolarity := true }, by decide⟩

def started (word : BitVec 24) (k : ℕ) : Input 24 := ⟨decide (k = 0), word⟩

theorem wires_never_honour_one_chip :
    ¬ oneChip.Carries false true true oneChip.spi.powerUp (started 0xda7690) 0xda7690 ∧
      oneChip.Carries false true false oneChip.spi.powerUp (started 0xda7690) 0xda7690 :=
  have wires := wires_never_honour oneChip (by decide) (by decide) _ .initial (started 0xda7690)
    0xda7690 rfl rfl fun _ _ => rfl
  ⟨wires.1, wires.2.1⟩

def lowestFirst : MigenSPI := { oneChip with lsbFirst := true }

theorem wires_never_honour_counterexample :
    (lowestFirst.wiresAt lowestFirst.spi.powerUp (started 1) 0).cs.getLsbD 0 = true ∧
      (times (lowestFirst.sampling fun k =>
          (lowestFirst.wiresAt lowestFirst.spi.powerUp (started 1) k).clk) 1
          (csEnd lowestFirst.spi false + 1)).map
        (fun k => (lowestFirst.wiresAt lowestFirst.spi.powerUp (started 1) k).mosi) ≠
          wireBits true (1 : BitVec 24) ∧
      ¬ lowestFirst.Carries true true true lowestFirst.spi.powerUp (started 1) 1 := by
  have t : Transfer lowestFirst.spi lowestFirst.clockPhase false lowestFirst.spi.powerUp
      fun n => lowestFirst.spiInput (started 1 n) :=
    transfer (by decide) .initial rfl rfl
  have instead : lowestFirst.Carries false true false lowestFirst.spi.powerUp (started 1) 1 :=
    carries_instead t fun _ _ => rfl
  have other : wireBits false (1 : BitVec 24) ≠ wireBits true (1 : BitVec 24) := by decide
  refine ⟨by decide, ?_, ?_⟩
  · intro lowest
    exact other (instead.order.symm.trans lowest)
  · intro honoured
    exact other (instead.order.symm.trans honoured.order)

end MigenSPI

end Pypga.Migen.SpiWires
