/- GID: Pypga/Modules/RamWindows
   generality: G
   digest: The writes of a burst to the RAM stay apart, and in the window of their port, up to 2 ^ 20 samples. -/

import Pypga.Modules.TimeOrder

set_option autoImplicit false
set_option relaxedAutoImplicit false

namespace Pypga.Modules.RamWindows

open Pypga.Foundation.ClockedMachine (run)
open Pypga.Foundation.Waveform (times times_shift)
open Pypga.Migen
open Pypga.Migen.BurstDecomposition (countdown labels)
open Pypga.Migen.BurstWindows
open Pypga.Migen.PulseGenerators (BurstGen)
open Pypga.Modules.Daq
open Pypga.Modules.AcquisitionLength
open Pypga.Modules.Recording
open Pypga.Modules.TimeOrder (two twoPowerUp two_window once)

def windowStart (axiHpIndex : ℕ) : ℕ := ramStart + axiHpIndex * 0x800000

/-- Writes of eight bytes to different addresses in the window of a port. -/
structure Isolated (axiHpIndex : ℕ) (addresses : List ℕ) : Prop where
  distinct : addresses.Nodup
  inside : ∀ x ∈ addresses, windowStart axiHpIndex ≤ x ∧ x + 8 ≤ windowStart (axiHpIndex + 1)

theorem isolated_disjoint {g h : ℕ} {xs ys : List ℕ} (left : Isolated g xs) (right : Isolated h ys)
    (ports : g < h) {x y : ℕ} (first : x ∈ xs) (second : y ∈ ys) : x + 8 ≤ y := by
  have below := (left.inside x first).2
  have above := (right.inside y second).1
  unfold windowStart at below above
  omega

/-- The addresses of the writes in the cycles `lo ≤ u < hi`. -/
def written (s : ℕ → AxiWriter.State) (lo hi : ℕ) : List ℕ :=
  (times (fun u => (s u).writer.awValid) lo hi).map fun u => (s u).address

private theorem written_shift {place : ℕ → ℕ} {s : ℕ → AxiWriter.State} {r : ℕ → BurstGen}
    (asked : ∀ u, (s (u + 1)).address = place (r u).count)
    (valid : ∀ u, (s (u + 1)).writer.awValid = (r u).out) (lo hi : ℕ) :
    written s (lo + 1) (hi + 2) = (labels r lo hi).map place := by
  have shifted : times (fun u => (s u).writer.awValid) (lo + 1) (hi + 1 + 1) =
      (times (fun u => (r u).out) lo (hi + 1)).map (· + 1) := by
    apply times_shift
    intro u _ _
    exact valid u
  rw [written, shifted, labels, List.map_map, List.map_map]
  apply List.map_congr_left
  intro u _
  exact asked u

private theorem written_eq {width h : ℕ} {signed : Bool} {ready : ℕ → AxiWriter.Ready}
    (r : ℕ → BurstGen)
    (value : ℕ → BitVec width) (start : AxiWriter.State) (lo hi : ℕ) :
    written (recordRam h signed ready r value start) (lo + 1) (hi + 2) =
      (labels r lo hi).map (address h) := by
  apply written_shift
  · intro u
    have transfer := AxiWriter.next_transfer (i := writerInput h signed (ready u) (r u) (value u))
      (recordRam h signed ready r value start u)
    rw [record_ram_succ, transfer.1, writer_input_address]
  · intro u
    have transfer := AxiWriter.next_transfer (i := writerInput h signed (ready u) (r u) (value u))
      (recordRam h signed ready r value start u)
    rw [record_ram_succ, transfer.2]
    rfl

section Addresses

variable {h : ℕ} (ports : h < 4)
include ports

theorem address_of_few {count : ℕ} (few : count < 2 ^ 20) : address h count = windowStart h + 8 * count := by
  have low : 8 * count < 2 ^ 23 := by omega
  have base : ramStart + h * 0x800000 = 2 ^ 23 * (20 + h) := by
    rw [ramStart]
    omega
  have masked : (0x2000000 - 1) &&& (count <<< 3) = 8 * count := by
    rw [masked_count]
    omega
  rw [address, masked, windowStart, base, ← Nat.two_pow_add_eq_or_of_lt low]
  omega

private theorem address_of_many :
    address h (2 ^ 20) = windowStart (h + 1) ∨ address h (2 ^ 20) = address h 0 := by
  have each : ∀ g : Fin 4, address g (2 ^ 20) = windowStart (g + 1) ∨ address g (2 ^ 20) = address g 0 := by
    decide +kernel
  exact each ⟨h, ports⟩

private theorem isolated_countdown_iff (n : ℕ) :
    Isolated h ((countdown n).map (address h)) ↔ n < 2 ^ 20 := by
  constructor
  · rintro ⟨distinct, inside⟩
    by_contra many
    have last : 2 ^ 20 ∈ countdown n := mem_countdown.mpr (by omega)
    rcases address_of_many ports with outside | again
    · have bound := (inside _ (List.mem_map_of_mem last)).2
      rw [outside] at bound
      omega
    · have same := List.inj_on_of_nodup_map distinct last (mem_countdown.mpr (Nat.zero_le n)) again
      exact absurd same (by decide)
  · intro few
    have place : ∀ c ∈ countdown n, address h c = windowStart h + 8 * c := by
      intro c member
      have le := mem_countdown.mp member
      exact address_of_few ports (by omega)
    constructor
    · apply List.Nodup.map_on _ (countdown_nodup n)
      intro c first d second same
      rw [place c first, place d second] at same
      omega
    · intro x member
      obtain ⟨c, label, rfl⟩ := List.mem_map.mp member
      have le := mem_countdown.mp label
      rw [place c label, windowStart, windowStart]
      omega

end Addresses

private theorem written_window {a : Arguments} {s : State} (created : a.create = .ok s)
    {w : ℕ → Input}
    {t e : ℕ} (window : Window (a.burst s w) (fun k => (w k).trigger) t e) (h : ℕ)
    (ready : ℕ → AxiWriter.Ready) (value : ℕ → BitVec a.dataWidth) (start : AxiWriter.State) :
    written (recordRam h a.dataSigned ready (a.burst s w) value start) (t + 2) (e + 2) =
      (countdown (acquired a (run a.next s w t).length - 1)).map (address h) := by
  rw [written_eq (a.burst s w) value start (t + 1) e]
  rw [burst_run] at window ⊢
  rw [window_labels (fun _ => rfl) (create_idle created).1 window]
  rfl

/-- The writes of a burst are isolated exactly if it has at most `2 ^ 20` samples. -/
theorem burst_isolated_iff (a : Arguments) (h : ℕ) (port : a.axiHpIndex = some h) (s : State)
    (created : a.create = .ok s) (w : ℕ → Input) (t e : ℕ)
    (window : Window (a.burst s w) (fun k => (w k).trigger) t e) (ready : ℕ → AxiWriter.Ready)
    (value : ℕ → BitVec a.dataWidth) (start : AxiWriter.State) :
    Isolated h (written (recordRam h a.dataSigned ready (a.burst s w) value start) (t + 2) (e + 2)) ↔
      acquired a (run a.next s w t).length ≤ 2 ^ 20 := by
  have ports : h < 4 := port_of_create created port
  have positive : 1 ≤ acquired a (run a.next s w t).length := Nat.le_add_left _ _
  rw [written_window created window, isolated_countdown_iff ports]
  omega

def idlePort : AxiWriter.State := ⟨0, ⟨false, false⟩, fun _ => 0⟩

theorem burst_isolated_two :
    Isolated 1 (written (recordRam 1 (two (some 1)).dataSigned (fun _ => ⟨true, true⟩)
        ((two (some 1)).burst twoPowerUp once) (fun _ => (0 : BitVec (two (some 1)).dataWidth))
        idlePort) 2 8) ↔
      acquired (two (some 1)) (run (two (some 1)).next twoPowerUp once 0).length ≤ 2 ^ 20 := by
  obtain ⟨created, window, -, -⟩ := two_window (some 1)
  exact burst_isolated_iff (two (some 1)) 1 rfl twoPowerUp created once 0 6 window
    (fun _ => ⟨true, true⟩) (fun _ => (0 : BitVec (two (some 1)).dataWidth)) idlePort

def long : Arguments where
  dataDepth := 2 ^ 20 + 1
  dataWidth := 14
  dataDecimals := 13
  samplingPeriodWidth := 32
  defaultSamplingPeriod := 10
  dataSigned := true
  axiHpIndex := some 0

def longPowerUp : State := ⟨2 ^ 20 + 1, 8, ⟨⟨false, 7, false⟩, false, false, 0, false⟩⟩

/-- A burst with one sample more, on the first port, writes to the window of the second one. -/
theorem burst_isolated_counterexample :
    long.create = .ok longPowerUp ∧
      ∃ e, Window (long.burst longPowerUp once) (fun k => (once k).trigger) 0 e ∧
        ¬ Isolated 0 (written (recordRam 0 long.dataSigned (fun _ => ⟨true, true⟩)
          (long.burst longPowerUp once) (fun _ => (0 : BitVec long.dataWidth)) idlePort) 2 (e + 2)) := by
  have created : long.create = .ok longPowerUp := rfl
  have quiet : ∀ k < 0, (once k).trigger = false := fun k before => absurd before (Nat.not_lt_zero k)
  obtain ⟨e, window⟩ := acquires created (accepts_idle created quiet rfl)
  refine ⟨created, e, window, ?_⟩
  have samples : acquired long (run long.next longPowerUp once 0).length = 2 ^ 20 + 1 := by
    decide +kernel
  have addresses := written_window created window 0 (fun _ => ⟨true, true⟩)
    (fun _ => (0 : BitVec long.dataWidth)) idlePort
  rw [samples, Nat.zero_add] at addresses
  rw [addresses, isolated_countdown_iff (by decide)]
  decide

end Pypga.Modules.RamWindows
