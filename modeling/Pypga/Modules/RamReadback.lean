/- GID: Pypga/Modules/RamReadback
   generality: G
   digest: Captures that fit the window of their port are read back exactly from the RAM. -/

import Pypga.Modules.RamWindows

set_option autoImplicit false
set_option relaxedAutoImplicit false

namespace Pypga.Modules.RamReadback

open Pypga.Foundation.ClockedMachine (run)
open Pypga.Foundation.LittleEndian (Word)
open Pypga.Foundation.StoreSequence
open Pypga.Foundation.Waveform (times mem_times)
open Pypga.Migen
open Pypga.Migen.BurstDecomposition (countdown labels)
open Pypga.Migen.BurstWindows
open Pypga.Migen.PulseGenerators (BurstGen)
open Pypga.Core.ArrayAttribute
open Pypga.Core.Registers
open Pypga.Core.RemoteInterface (Succeeds)
open Pypga.Remote.MonitorServer (Bus latch)
open Pypga.Modules.Daq
open Pypga.Modules.AcquisitionLength (samples acquired)
open Pypga.Modules.Recording
open Pypga.Modules.DataAttribute
open Pypga.Modules.TimeOrder (two twoPowerUp once)

variable {α : Type*}

/-- The pulse in the cycle `u` is the last one before `hi` with the count `c`, in all of the bits
that have a place in the window of a port; its write is accepted when the value is `x`. -/
structure Captured (r : ℕ → BurstGen) (value : ℕ → α) (lo hi c : ℕ) (x : α) (u : ℕ) : Prop where
  inside : lo ≤ u ∧ u < hi
  pulse : (r u).out = true
  label : (r u).count = c
  held : value (u + 1) = x
  last : ∀ v, u < v → v < hi → (r v).out = true → (r v).count % 2 ^ 20 ≠ c

section Bursts

variable {a : Arguments} {s : State} (created : a.create = .ok s) {w : ℕ → Input} {t e : ℕ}
variable (window : Window (a.burst s w) (fun k => (w k).trigger) t e)
include created window

theorem burst_captured {k : ℕ} (after : e < k)
    (quiet : ∀ u, e < u → u < k → (a.burst s w u).out = false) (value : ℕ → α) {c : ℕ}
    (few : c < 2 ^ 20) (taken : c < acquired a (run a.next s w t).length) :
    ∃ u, Captured (a.burst s w) value (t + 1) k c (value (u + 1)) u := by
  have all : labels (a.burst s w) (t + 1) e =
      countdown (acquired a (run a.next s w t).length - 1) := by
    rw [burst_run] at window ⊢
    exact window_labels (fun _ => rfl) (create_idle created).1 window
  have member : c ∈ labels (a.burst s w) (t + 1) e := by
    rw [all]
    exact mem_countdown.mpr (by omega)
  obtain ⟨u, time, label⟩ := List.mem_map.mp member
  obtain ⟨later, earlier, pulse⟩ := mem_times.mp time
  refine ⟨u, ⟨later, by omega⟩, pulse, label, rfl, ?_⟩
  intro v behind before high
  have inside : v ≤ e := by
    by_contra beyond
    rw [quiet v (by omega) before] at high
    cases high
  have second : v ∈ times (fun k => (a.burst s w k).out) (t + 1) (e + 1) :=
    mem_times.mpr ⟨by omega, by omega, high⟩
  have smaller := label_lt_of_lt all time second behind
  omega

end Bursts

section Units

variable {a : Arguments} {h : ℕ} {r : ℕ → BurstGen} {value : ℕ → BitVec a.dataWidth}
variable {ready : ℕ → AxiWriter.Ready} {lo hi : ℕ}

theorem captured_unit (ports : h < 4) (start : AxiWriter.State)
    (accepted : ∀ u, lo ≤ u → u < hi → (r u).out = true →
      (ready (u + 1)).aw = true ∧ (ready (u + 1)).w = true)
    {c u : ℕ} (few : c < 2 ^ 20) {x : BitVec a.dataWidth} (captured : Captured r value lo hi c x u) :
    (recordRam h a.dataSigned ready r value start (hi + 1)).ram (unit h c) = extend a.dataSigned x := by
  obtain ⟨⟨after, before⟩, pulse, label, rfl, last⟩ := captured
  have own : address h (r u).count / 8 = unit h c := by
    rw [label, RamWindows.address_of_few ports few, unit, RamWindows.windowStart, ramStart]
    omega
  have apart : ∀ v, u < v → v < hi → (r v).out = true →
      address h (r v).count / 8 ≠ address h (r u).count / 8 := by
    intro v later earlier high same
    have place := address_mod h (r v).count
    have other := last v later earlier high
    rw [own, unit, ramStart] at same
    omega
  have stored := last_store_log (fun u => value (u + 1)) (fun d => address h d / 8)
    (extend a.dataSigned) after before pulse apart
  rw [record_ram r value start (by omega) accepted, store_all_eq, ← own, stored]
  rfl

end Units

def sampleValue (a : Arguments) (x : BitVec a.dataWidth) : ℚ :=
  if a.dataSigned then (x.toInt : ℚ) else (x.toNat : ℚ)

private theorem decoded_eq {a : Arguments} (decimals : 1 ≤ a.dataDecimals)
    (x : BitVec a.dataWidth) :
    decoded a x = .finite (sampleValue a x / (2 ^ a.dataDecimals - 1)) := by
  have nonzero : (2 : ℚ) ^ a.dataDecimals - 1 ≠ 0 := by
    have large : (1 : ℚ) < 2 ^ a.dataDecimals := one_lt_pow₀ (by norm_num) (by omega)
    exact sub_ne_zero.mpr large.ne'
  rw [decoded, divide, if_neg nonzero]
  rfl

/-- What was captured under each count is read back exactly under this index. -/
theorem readback_exact {ρ : Type*} (a : Arguments) (h : ℕ) (port : a.axiHpIndex = some h)
    (ports : h < 4) (deep : 2 ≤ a.dataDepth) (few : a.dataDepth ≤ 2 ^ 20) (narrow : a.dataWidth ≤ 32)
    (decimals : 1 ≤ a.dataDecimals) (r : ℕ → BurstGen) (value : ℕ → BitVec a.dataWidth)
    (ready : ℕ → AxiWriter.Ready) (start : AxiWriter.State) (lo hi : ℕ)
    (accepted : ∀ u, lo ≤ u → u < hi → (r u).out = true →
      (ready (u + 1)).aw = true ∧ (ready (u + 1)).w = true)
    (x : ℕ → BitVec a.dataWidth) (captured : ∀ c < a.dataDepth, ∃ u, Captured r value lo hi c (x c) u)
    (address : Word) (rest : Bus ρ) (others : ρ) (buffer : ℕ → Word) :
    ∃ words, Succeeds (withRam ramStart rest) (readOp a.data address) buffer
        (others, (recordRam h a.dataSigned ready r value start (hi + 1)).ram) (.words words) ∧
      arrayValue a.data words = .ok ((List.range a.dataDepth).map fun c =>
        .finite (sampleValue a (x c) / (2 ^ a.dataDecimals - 1))) := by
  have width : a.data.readWidth = 32 := by
    have area : a.data.ramOffset = a.axiHpIndex.map (· * 0x800000) := rfl
    rw [NumberRegister.readWidth, area, port]
    rfl
  have full : ((List.range a.dataDepth).map x).length = a.dataDepth := by
    rw [List.length_map, List.length_range]
  have order : InOrder a (withRam ramStart rest) address buffer
      (others, (recordRam h a.dataSigned ready r value start (hi + 1)).ram)
      ((List.range a.dataDepth).map x) := by
    rw [in_order_ram full port ports]
    refine ⟨by omega, by omega, ?_⟩
    intro i inside
    obtain ⟨u, written⟩ := captured i inside
    have sample : ((List.range a.dataDepth).map x).getD i 0 = x i := by
      rw [List.getD_eq_getElem _ _ (by omega), List.getElem_map, List.getElem_range]
    dsimp only
    rw [sample, captured_unit ports start accepted (by omega) written, decoded_unit width narrow]
  obtain ⟨words, read, value⟩ := order
  refine ⟨words, read, ?_⟩
  rw [value, List.map_map]
  congr 1
  apply List.map_congr_left
  intro c _
  exact decoded_eq decimals (x c)

theorem readback_two :
    (∃ u, Captured ((two (some 1)).burst twoPowerUp once)
        (fun u => if u < 4 then (2 : BitVec (two (some 1)).dataWidth) else 3) 0 5 0 3 u) ∧
      ∃ words, Succeeds (withRam ramStart latch) (readOp (two (some 1)).data 0x40000000) (fun _ => 0)
        (0, (recordRam 1 (two (some 1)).dataSigned (fun _ => ⟨true, true⟩)
          ((two (some 1)).burst twoPowerUp once)
          (fun u => if u < 4 then (2 : BitVec (two (some 1)).dataWidth) else 3)
          RamWindows.idlePort 6).ram) (.words words) ∧
        arrayValue (two (some 1)).data words = .ok [.finite 3, .finite 2] := by
  have second : Captured ((two (some 1)).burst twoPowerUp once)
      (fun u => if u < 4 then (2 : BitVec (two (some 1)).dataWidth) else 3) 0 5 0 3 4 :=
    ⟨by decide, by decide, by decide, rfl, fun v later before => absurd before (by omega)⟩
  have first : Captured ((two (some 1)).burst twoPowerUp once)
      (fun u => if u < 4 then (2 : BitVec (two (some 1)).dataWidth) else 3) 0 5 1 2 1 := by
    refine ⟨by decide, by decide, by decide, rfl, ?_⟩
    intro v later before
    have each : ∀ v : Fin 5, 1 < v.val → ((two (some 1)).burst twoPowerUp once v).out = true →
        ((two (some 1)).burst twoPowerUp once v).count % 2 ^ 20 ≠ 1 := by decide
    exact each ⟨v, before⟩ later
  have captured : ∀ c < (two (some 1)).dataDepth, ∃ u, Captured ((two (some 1)).burst twoPowerUp once)
      (fun u => if u < 4 then (2 : BitVec (two (some 1)).dataWidth) else 3) 0 5 c
      (if c = 0 then 3 else 2) u := by
    intro c inside
    rcases Nat.eq_zero_or_pos c with rfl | positive
    · exact ⟨4, second⟩
    · obtain rfl : c = 1 := by
        have depth : (two (some 1)).dataDepth = 2 := rfl
        omega
      exact ⟨1, first⟩
  obtain ⟨words, read, value⟩ := readback_exact (two (some 1)) 1 rfl (by decide) le_rfl (by decide)
    (by decide) le_rfl ((two (some 1)).burst twoPowerUp once) _ (fun _ => ⟨true, true⟩)
    RamWindows.idlePort 0 5 (fun _ _ _ _ => ⟨rfl, rfl⟩) (fun c => if c = 0 then 3 else 2) captured
    0x40000000 latch 0 (fun _ => 0)
  refine ⟨⟨4, second⟩, words, read, ?_⟩
  rw [value]
  decide +kernel

end Pypga.Modules.RamReadback
