/- GID: Pypga/Foundation/SerialReceiver
   generality: G
   digest: A receiver of synchronous serial frames, and what it makes of the levels on its wires. -/

import Pypga.Foundation.ClockedMachine
import Pypga.Foundation.Waveform

set_option autoImplicit false
set_option relaxedAutoImplicit false

namespace Pypga.Foundation.SerialReceiver

open Pypga.Foundation.ClockedMachine (run run_succ)
open Pypga.Foundation.Waveform

structure Levels where
  selected : Bool
  clk : Bool
  data : Bool

/-- The previous levels of two of the wires, the bits of the frame so far, and the frames that have
ended. -/
structure Receiver where
  selected : Bool
  clk : Bool
  bits : List Bool
  frames : List (List Bool)
  deriving DecidableEq

def powerUp : Receiver := ⟨false, false, [], []⟩

/-- While it is selected, the receiver takes a bit at each falling, or rising, edge of the clock. -/
def Receiver.next (falls : Bool) (x : Levels) (r : Receiver) : Receiver :=
  let edge := if falls then !x.clk && r.clk else x.clk && !r.clk
  if x.selected then ⟨true, x.clk, if edge then r.bits ++ [x.data] else r.bits, r.frames⟩
  else ⟨false, x.clk, [], if r.selected then r.frames ++ [r.bits] else r.frames⟩

def received (falls : Bool) (x : ℕ → Levels) : ℕ → Receiver := run (Receiver.next falls) powerUp x

def edges (falls : Bool) (clk : ℕ → Bool) : ℕ → Bool := if falls then falling clk else rising clk

variable {falls : Bool} {x : ℕ → Levels} {lo hi k : ℕ}

theorem edges_translate (clk : ℕ → Bool) (n : ℕ) (later : 0 < lo) :
    times (edges falls clk) (n + lo) (n + hi) =
      (times (edges falls fun k => clk (n + k)) lo hi).map (n + ·) := by
  rw [times_translate]
  congr 1
  apply List.filter_congr
  intro k member
  have inside := List.mem_range'_1.mp member
  have prior : n + k - 1 = n + (k - 1) := by omega
  cases falls <;> simp [edges, rising, falling, prior]

private theorem received_succ (k : ℕ) :
    received falls x (k + 1) = (received falls x k).next falls (x k) := rfl

private theorem clk_succ (k : ℕ) : (received falls x (k + 1)).clk = (x k).clk := by
  rw [received_succ, Receiver.next]
  split <;> rfl

theorem selected_succ (k : ℕ) : (received falls x (k + 1)).selected = (x k).selected := by
  rw [received_succ, Receiver.next]
  cases (x k).selected
  · rfl
  · rfl

theorem released_succ (released : (x k).selected = false) :
    (received falls x (k + 1)).bits = [] ∧ (received falls x (k + 1)).frames =
      if (received falls x k).selected then (received falls x k).frames ++ [(received falls x k).bits]
      else (received falls x k).frames := by
  rw [received_succ, Receiver.next, released]
  exact ⟨rfl, rfl⟩

theorem frames_released (after : lo ≤ k) (before : (received falls x lo).selected = false)
    (released : ∀ u, lo ≤ u → u < k → (x u).selected = false) :
    (received falls x k).selected = false ∧ (received falls x k).frames = (received falls x lo).frames := by
  induction k, after using Nat.le_induction with
  | base => exact ⟨before, rfl⟩
  | succ k after ih =>
    obtain ⟨selected, frames⟩ := ih fun u from_lo below => released u from_lo (Nat.lt_succ_of_lt below)
    have here := released k after (Nat.lt_succ_self k)
    refine ⟨(selected_succ k).trans here, ?_⟩
    rw [(released_succ here).2, selected, if_neg Bool.false_ne_true, frames]

theorem frame_bits (positive : 0 < lo) (fresh : (received falls x lo).bits = []) (after : lo ≤ k)
    (selected : ∀ u, lo ≤ u → u < k → (x u).selected = true) :
    (received falls x k).bits =
        (times (edges falls fun u => (x u).clk) lo k).map (fun u => (x u).data) ∧
      (received falls x k).frames = (received falls x lo).frames := by
  induction k, after using Nat.le_induction with
  | base => simp [times, fresh]
  | succ k after ih =>
    obtain ⟨bits, frames⟩ := ih fun u from_lo below => selected u from_lo (Nat.lt_succ_of_lt below)
    have here := selected k after (Nat.lt_succ_self k)
    obtain ⟨n, rfl⟩ : ∃ n, k = n + 1 := ⟨k - 1, by omega⟩
    have edge : (if falls then !(x (n + 1)).clk && (received falls x (n + 1)).clk
        else (x (n + 1)).clk && !(received falls x (n + 1)).clk) =
        edges falls (fun u => (x u).clk) (n + 1) := by
      rw [clk_succ]
      cases falls <;> rfl
    rw [received_succ, Receiver.next, here, if_pos rfl, edge, times_succ after, List.map_append, ← bits]
    refine ⟨?_, frames⟩
    dsimp only
    split <;> simp

/-- When the receiver is released, its bits become a frame. -/
theorem frame_ended (positive : 0 < lo) (fresh : (received falls x lo).bits = []) (lasting : lo < k)
    (selected : ∀ u, lo ≤ u → u < k → (x u).selected = true) (released : (x k).selected = false) :
    (received falls x (k + 1)).frames = (received falls x lo).frames ++
      [(times (edges falls fun u => (x u).clk) lo k).map fun u => (x u).data] := by
  obtain ⟨bits, frames⟩ := frame_bits positive fresh lasting.le selected
  obtain ⟨n, rfl⟩ : ∃ n, k = n + 1 := ⟨k - 1, by omega⟩
  have last : (received falls x (n + 1)).selected = true := by
    rw [selected_succ]
    exact selected n (by omega) (by omega)
  rw [(released_succ released).2, last, if_pos rfl, bits, frames]

end Pypga.Foundation.SerialReceiver
