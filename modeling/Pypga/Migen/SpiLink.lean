/- GID: Pypga/Migen/SpiLink
   generality: G
   digest: The chips on the wires of the SPI module receive the accepted words, each once and in order. -/

import Pypga.Foundation.SerialReceiver
import Pypga.Migen.SpiWires

set_option autoImplicit false
set_option relaxedAutoImplicit false

namespace Pypga.Migen.SpiLink

open Pypga.Foundation.ClockedMachine (run run_add run_succ shift Reachable rest_or_work)
open Pypga.Foundation.SerialReceiver
open Pypga.Foundation.Waveform
open Pypga.Migen.SpiMachine
open Pypga.Migen.SpiLockstep (reachable_idle next_idle_rest)
open Pypga.Migen.SpiTransfer
open Pypga.Migen.SpiTiming (idleAgain idle_again_eq after_pause idle_at)
open Pypga.Migen.SpiWord (Transfer)
open Pypga.Migen.SpiWires

variable (m : MigenSPI) (w : ℕ → Input m.dataWidth)

def history (k : ℕ) : Spi m.spi.dataWidth := run m.next m.spi.powerUp w k

def wires (k : ℕ) : Wires m.csWidth := m.wires (w k) (history m w k)

/-- What a chip at select wire `j` sees. The wire of a selected chip is at the opposite of
`cs_polarity`. -/
def levels (j k : ℕ) : Levels where
  selected := (wires m w k).cs.getLsbD j ^^ m.csPolarity
  clk := (wires m w k).clk
  data := (wires m w k).mosi

/-- A chip in the mode of the module. -/
def chip (j : ℕ) : ℕ → Receiver := received (m.clockPhase ^^ m.clockPolarity) (levels m w j)

def accepted (k : ℕ) : Bool := (w k).start && !(wires m w k).busy

def word (t : ℕ) : BitVec m.dataWidth := (w (t + loadCycle m.spi m.clockPhase)).data

/-- The accepted starts whose frames have ended. -/
def ended (k : ℕ) : List ℕ :=
  (times (accepted m w) 0 k).filter fun t => t + csEnd m.spi m.clockPhase + 2 ≤ k

variable {m w} {n k j : ℕ}

private theorem reachable_at (k : ℕ) : Reachable m.next m.spi.powerUp (history m w k) := by
  induction k with
  | zero => exact .initial
  | succ k ih => exact ih.step (w k)

private theorem wires_later (n k : ℕ) :
    wires m w (n + k) = m.wiresAt (history m w n) (shift w n) k := by
  rw [wires, history, run_add]
  rfl

private theorem accepted_iff :
    accepted m w k = true ↔ (w k).start = true ∧ (history m w k).fsm = .idle := by
  rw [accepted, wires, MigenSPI.busy_eq]
  simp

private theorem chip_selected (wire : j < m.csWidth) (k : ℕ) :
    (levels m w j k).selected = (selected (history m w k).fsm && decide (j = m.cs)) := by
  rw [levels, wires, MigenSPI.cs_level _ _ wire]
  simp

private theorem other_chips (wire : j < m.csWidth) (other : j ≠ m.cs) (k : ℕ) :
    (chip m w j k).frames = [] := by
  have never : ∀ u, 0 ≤ u → u < k → (levels m w j u).selected = false := by
    intro u _ _
    rw [chip_selected wire, decide_eq_false other, Bool.and_false]
  exact (frames_released (Nat.zero_le k) rfl never).2

section Accepted

variable (div : 1 ≤ m.clockDiv) (taken : accepted m w n = true)
include div taken

private theorem transfer_at : Transfer m.spi m.clockPhase false (history m w n)
    fun k => m.spiInput (shift w n k) := by
  obtain ⟨start, idle⟩ := accepted_iff.mp taken
  refine MigenSPI.transfer div (reachable_at n) ?_ start
  rw [MigenSPI.busy_eq, idle]
  rfl

omit div taken in
private theorem history_later (k : ℕ) : (history m w (n + k)).fsm =
    (run m.spi.next (history m w n) (fun k => m.spiInput (shift w n k)) k).fsm := by
  rw [history, run_add, MigenSPI.run_eq]
  rfl

private theorem selected_later (below : m.cs < m.csWidth) {k : ℕ}
    (before : k ≤ idleAgain m.spi m.clockPhase) :
    (levels m w m.cs (n + k)).selected = true ↔ 1 ≤ k ∧ k ≤ csEnd m.spi m.clockPhase := by
  rw [chip_selected below, decide_eq_true rfl, Bool.and_true, history, run_add]
  exact MigenSPI.selected_iff (transfer_at div taken) before

private theorem refused_later {k : ℕ} (after : 1 ≤ k) (before : k < idleAgain m.spi m.clockPhase) :
    accepted m w (n + k) = false := by
  apply Bool.eq_false_iff.mpr
  intro again
  have idle := (accepted_iff.mp again).2
  rw [history_later] at idle
  have last := (idle_at (transfer_at div taken) k after before.le).mp idle
  omega

private theorem accepted_until {k : ℕ} (after : n < k)
    (before : k ≤ n + idleAgain m.spi m.clockPhase) :
    times (accepted m w) 0 k = times (accepted m w) 0 n ++ [n] := by
  rw [times_split n (Nat.zero_le n) after.le, times_eq_singleton le_rfl after taken]
  intro u from_start below_k other
  have refused := refused_later div taken (k := u - n) (by omega) (by omega)
  rwa [Nat.add_sub_cancel' from_start] at refused

end Accepted

structure Resting (m : MigenSPI) (w : ℕ → Input m.dataWidth) (n : ℕ) : Prop where
  idle : (history m w n).fsm = .idle
  released : (chip m w m.cs n).selected = false
  frames : (chip m w m.cs n).frames = (times (accepted m w) 0 n).map fun t => wireBits false (word m w t)
  past : ∀ t ∈ times (accepted m w) 0 n, t + csEnd m.spi m.clockPhase + 2 ≤ n

section Delivered

private theorem rests_at_power_up : Resting m w 0 := ⟨rfl, rfl, rfl, by simp [times]⟩

variable (below : m.cs < m.csWidth)
include below

omit below in
private theorem chip_released (unselected : (levels m w m.cs n).selected = false) :
    (chip m w m.cs (n + 1)).bits = [] ∧ (chip m w m.cs (n + 1)).frames =
      if (chip m w m.cs n).selected then (chip m w m.cs n).frames ++ [(chip m w m.cs n).bits]
      else (chip m w m.cs n).frames := released_succ unselected

private theorem unselected_idle (idle : (history m w n).fsm = .idle) :
    (levels m w m.cs n).selected = false := by
  rw [chip_selected below, idle]
  rfl

variable (div : 1 ≤ m.clockDiv)
include div

private theorem rests_on (rest : Resting m w n) (refused : accepted m w n = false) :
    Resting m w (n + 1) := by
  have unselected := unselected_idle below rest.idle
  have same : times (accepted m w) 0 (n + 1) = times (accepted m w) 0 n := by
    rw [times_succ (Nat.zero_le n), refused]
    exact List.append_nil _
  have start : (w n).start = false := by
    by_contra high
    exact Bool.eq_false_iff.mp refused (accepted_iff.mpr ⟨by simpa using high, rest.idle⟩)
  refine ⟨?_, (selected_succ n).trans unselected, ?_, ?_⟩
  · have still := reachable_idle (Nat.zero_lt_of_lt m.wide) div
      (MigenSPI.reachable_spi (reachable_at n)) rest.idle
    have next : history m w (n + 1) = m.spi.next (m.spiInput (w n)) (history m w n) := rfl
    rw [next, still, next_idle_rest _ _ start]
    rfl
  · rw [same, ← rest.frames, (chip_released unselected).2, rest.released]
    rfl
  · rw [same]
    intro t member
    exact (rest.past t member).trans (Nat.le_succ n)

private theorem frame_at_end (rest : Resting m w n) (taken : accepted m w n = true) :
    (∀ k, n < k → k ≤ n + csEnd m.spi m.clockPhase + 1 →
      (chip m w m.cs k).frames = (chip m w m.cs n).frames) ∧
    (chip m w m.cs (n + csEnd m.spi m.clockPhase + 2)).frames =
      (chip m w m.cs n).frames ++ [wireBits false (word m w n)] := by
  have t := transfer_at div taken
  have last := idle_again_eq m.spi m.clockPhase
  have opened : (chip m w m.cs (n + 1)).bits = [] ∧
      (chip m w m.cs (n + 1)).frames = (chip m w m.cs n).frames := by
    obtain ⟨bits, frames⟩ := chip_released (unselected_idle below rest.idle)
    rw [rest.released, if_neg Bool.false_ne_true] at frames
    exact ⟨bits, frames⟩
  have selected : ∀ u, n + 1 ≤ u → u < n + csEnd m.spi m.clockPhase + 1 →
      (levels m w m.cs u).selected = true := by
    intro u after before
    have inside := (selected_later div taken below (k := u - n) (by omega)).mpr (by omega)
    rwa [Nat.add_sub_cancel' (by omega)] at inside
  have released : (levels m w m.cs (n + csEnd m.spi m.clockPhase + 1)).selected = false := by
    have outside := (selected_later div taken below (k := csEnd m.spi m.clockPhase + 1) (by omega)).not.mpr
      (by omega)
    simpa [Nat.add_assoc] using outside
  refine ⟨?_, ?_⟩
  · intro k after before
    rw [← opened.2]
    exact (frame_bits (Nat.succ_pos n) opened.1 after
      fun u from_start below_k => selected u from_start (by omega)).2
  · have lasting : n + 1 < n + csEnd m.spi m.clockPhase + 1 := by
      have load : 1 ≤ loadCycle m.spi m.clockPhase := Nat.le_add_left 1 _
      have early := MigenSPI.load_before_end (m := m)
      omega
    have ended := frame_ended n.succ_pos opened.1 lasting selected released
    have order := MigenSPI.sampled_order t
    simp only [← wires_later] at order
    rw [← chip, opened.2, Nat.add_assoc n _ 1, edges_translate _ n Nat.one_pos, List.map_map] at ended
    exact ended.trans (congrArg (fun bits => (chip m w m.cs n).frames ++ [bits]) order)

private theorem frames_later (rest : Resting m w n) (taken : accepted m w n = true) (after : n < k)
    (before : k ≤ n + idleAgain m.spi m.clockPhase) :
    (chip m w m.cs k).frames = (chip m w m.cs n).frames ++
      if n + csEnd m.spi m.clockPhase + 2 ≤ k then [wireBits false (word m w n)] else [] := by
  obtain ⟨during, closed⟩ := frame_at_end below div rest taken
  split_ifs with ended
  · have silent : ∀ u, n + csEnd m.spi m.clockPhase + 1 ≤ u → u < k →
        (levels m w m.cs u).selected = false := by
      intro u from_end below_k
      have outside := (selected_later div taken below (k := u - n) (by omega)).not.mpr (by omega)
      rw [Nat.add_sub_cancel' (by omega)] at outside
      simpa using outside
    have released : (chip m w m.cs (n + csEnd m.spi m.clockPhase + 2)).selected = false :=
      (selected_succ _).trans (silent _ le_rfl (by omega))
    have stays := (frames_released ended released fun u from_end below_k => silent u (by omega) below_k).2
    exact stays.trans closed
  · rw [during k after (by omega), List.append_nil]

private theorem rests_again (rest : Resting m w n) (taken : accepted m w n = true) :
    Resting m w (n + idleAgain m.spi m.clockPhase) := by
  have t := transfer_at div taken
  have last := idle_again_eq m.spi m.clockPhase
  have ended : n + csEnd m.spi m.clockPhase + 2 ≤ n + idleAgain m.spi m.clockPhase := by omega
  have single := accepted_until div taken (k := n + idleAgain m.spi m.clockPhase) (by omega) le_rfl
  refine ⟨?_, ?_, ?_, ?_⟩
  · rw [history_later, after_pause t]
  · have silent := (selected_later div taken below (k := idleAgain m.spi m.clockPhase - 1)
      (by omega)).not.mpr (by omega)
    have next : (chip m w m.cs (n + (idleAgain m.spi m.clockPhase - 1) + 1)).selected =
        (levels m w m.cs (n + (idleAgain m.spi m.clockPhase - 1))).selected := selected_succ _
    rw [Bool.not_eq_true] at silent
    rw [silent, Nat.add_assoc, Nat.sub_add_cancel (by omega)] at next
    exact next
  · rw [frames_later below div rest taken (by omega) le_rfl, if_pos ended, single, rest.frames,
      List.map_append]
    rfl
  · rw [single]
    intro u member
    rcases List.mem_append.mp member with earlier | here
    · exact (rest.past u earlier).trans (Nat.le_add_right n _)
    · obtain rfl := List.mem_singleton.mp here
      exact ended

end Delivered

def twoChips : MigenSPI := ⟨{ cs := 1, dataWidth := 17, csWidth := 2, clockDiv := 1 }, by decide⟩

def counting (k : ℕ) : Input 17 := ⟨true, BitVec.ofNat 17 k⟩

end Pypga.Migen.SpiLink
