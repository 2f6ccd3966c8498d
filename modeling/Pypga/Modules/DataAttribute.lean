/- GID: Pypga/Modules/DataAttribute
   generality: G
   digest: What reading the attribute data of the DAQ gives, from its memory or from its part of the RAM. -/

import Pypga.Core.ArrayAttribute
import Pypga.Core.MountedRegister
import Pypga.Modules.Recording

set_option autoImplicit false
set_option relaxedAutoImplicit false

namespace Pypga.Modules.DataAttribute

open Pypga.Foundation.LittleEndian (Word)
open Pypga.Core.Registers
open Pypga.Core.RemoteInterface
open Pypga.Core.ArrayAttribute
open Pypga.Core.MemoryRegister
open Pypga.Core.IndexedArray
open Pypga.Core.MountedRegister
open Pypga.Remote.MonitorServer
open Pypga.Remote.SocketClient (Outcome)
open Pypga.Remote.DirectAccess (masked_offset)
open Pypga.Modules.Daq
open Pypga.Modules.Recording

variable {a : Arguments} {δ : Type*}

def decoded (a : Arguments) (v : BitVec a.dataWidth) : Quotient :=
  divide (if a.dataSigned then (v.toInt : ℚ) else (v.toNat : ℚ)) (2 ^ a.dataDecimals - 1)

/-- The Python attribute `data` reads as these samples, decoded and oldest first. -/
def InOrder (a : Arguments) (bus : Bus δ) (address : Word) (buffer : ℕ → Word) (device : δ)
    (vs : List (BitVec a.dataWidth)) : Prop :=
  ∃ words, Succeeds bus (readOp a.data address) buffer device (.words words) ∧
    arrayValue a.data words = .ok (vs.map (decoded a))

section Decoding

private theorem element_eq {m : ℕ} (width : a.data.readWidth = m) (x : BitVec m) :
    a.data.toPythonElement x.toNat =
      divide (if a.dataSigned then (x.toInt : ℚ) else (x.toNat : ℚ)) (2 ^ a.dataDecimals - 1) := by
  have offset : a.data.offsetFromPython = 0 := rfl
  have signed : a.data.signed = a.dataSigned := rfl
  have decimals : a.data.decimals = a.dataDecimals := rfl
  rw [FixedPointRegister.toPythonElement, NumberRegister.toPythonElement, offset, signed, decimals,
    width]
  simp only [Int.cast_zero, sub_zero]
  cases sign : a.dataSigned with
  | false => simp
  | true =>
    have bound := x.isLt
    have range : (2 : ℚ) ^ (m - 1) ≤ (x.toNat : ℚ) ↔ ¬ 2 * x.toNat < 2 ^ m := by
      rw [show (2 : ℚ) ^ (m - 1) = ((2 ^ (m - 1) : ℕ) : ℚ) by norm_cast, Nat.cast_le]
      cases m with
      | zero => simp at bound ⊢; omega
      | succ m => rw [Nat.add_sub_cancel, Nat.pow_succ]; omega
    rw [BitVec.toInt_eq_toNat_cond]
    by_cases small : 2 * x.toNat < 2 ^ m
    · have low : ¬ (2 : ℚ) ^ (m - 1) ≤ (x.toNat : ℚ) := fun high => range.mp high small
      simp [small, low]
    · simp [small, range.mpr small]

theorem decoded_unit (width : a.data.readWidth = 32) (narrow : a.dataWidth ≤ 32)
    (v : BitVec a.dataWidth) :
    a.data.toPythonElement ((extend a.dataSigned v).setWidth 32).toNat = decoded a v := by
  rw [element_eq width, decoded]
  cases sign : a.dataSigned with
  | false =>
    have bound := v.isLt
    have power : 2 ^ a.dataWidth ≤ 2 ^ 32 := Nat.pow_le_pow_right (by decide) narrow
    have kept : ((v.setWidth 64).setWidth 32).toNat = v.toNat := by
      simp only [BitVec.toNat_setWidth]
      omega
    simp only [extend, Bool.false_eq_true, if_false, kept]
  | true =>
    have half : (v.signExtend 64).setWidth 32 = v.signExtend 32 := by
      ext i inside
      have within : i < 64 := by omega
      simp [BitVec.getElem_signExtend, within]
    simp only [extend, if_true, half, BitVec.toInt_signExtend_of_le narrow]

private theorem decoded_entry (width : a.data.readWidth = a.dataWidth) (narrow : a.dataWidth ≤ 31)
    (v : BitVec a.dataWidth) : a.data.toPythonElement (v.setWidth 32).toNat = decoded a v := by
  have bound := v.isLt
  have power : 2 ^ a.dataWidth ≤ 2 ^ 31 := Nat.pow_le_pow_right (by decide) narrow
  have kept : (v.setWidth 32).toNat = v.toNat := by
    rw [BitVec.toNat_setWidth]
    omega
  rw [kept, element_eq width, decoded]

private theorem array_value (words : List Word) :
    arrayValue a.data words =
      .ok ((if a.axiHpIndex.isNone then words else everyOther words).map fun word =>
        a.data.toPythonElement word.toNat) := by
  have order : a.data.reverse = false := rfl
  have area : a.data.ramOffset.isNone = a.axiHpIndex.isNone := Option.isNone_map
  rw [arrayValue, order, area]
  rfl

end Decoding

theorem map_range_eq_iff {β γ : Type*} (default : β) {vs : List β} {n : ℕ} (full : vs.length = n)
    (f : ℕ → γ) (g : β → γ) :
    (List.range n).map f = vs.map g ↔ ∀ i < n, f i = g (vs.getD i default) := by
  constructor
  · intro same i inside
    have here := congrArg (fun l => l[i]?) same
    simp only [List.getElem?_map, List.getElem?_range inside] at here
    rw [List.getElem?_eq_getElem (by omega)] at here
    rw [List.getD_eq_getElem _ _ (by omega)]
    exact Option.some.inj here
  · intro each
    apply List.ext_getElem
    · simp [full]
    · intro i left right
      rw [List.length_map, List.length_range] at left
      rw [List.getElem_map, List.getElem_map, List.getElem_range, each i left,
        List.getD_eq_getElem _ _ (by omega)]

section Reading

variable {vs : List (BitVec a.dataWidth)} (full : vs.length = a.dataDepth)
include full

theorem in_order_memory {κ μ ρ : Type*} {csr : CsrStorage (a.dataWidth + 1) κ}
    {port : MemoryPort a.dataWidth a.dataDepth μ} {address : Word} {rest : Bus ρ}
    {buffer : ℕ → Word} (memory : a.axiHpIndex = none) (narrow : a.dataWidth ≤ 31)
    (deep : 2 ≤ a.dataDepth) (board : Board a.dataWidth a.dataDepth κ μ ρ) :
    InOrder a (mount csr port true address rest) address buffer board vs ↔
      a.dataDepth ≤ 65535 ∧ ∀ i < a.dataDepth,
        decoded a (port.mem board.register.memory (i % 2 ^ a.dataWidth)) =
          decoded a (vs.getD i 0) := by
  have area : a.data.ramOffset = none := by
    rw [show a.data.ramOffset = a.axiHpIndex.map (· * 0x800000) from rfl, memory]
    rfl
  have call : readOp a.data address = .reads address a.dataDepth := by
    rw [readOp, area]
    rfl
  have width : a.data.readWidth = a.dataWidth := by
    rw [NumberRegister.readWidth, area]
    rfl
  obtain ⟨n, cap⟩ : ∃ n, n = min a.dataDepth 65535 := ⟨_, rfl⟩
  have held : Holds csr port true board.register (port.mem board.register.memory) := .inr ⟨rfl, rfl⟩
  have read := (read_loop address rest (show n ≤ a.dataDepth by omega) (by omega) buffer board held).2
  have words : entries (readValues (mount csr port true address rest) address n (buffer, board)).1 n =
      (List.range n).map fun i =>
        (port.mem board.register.memory (i % 2 ^ a.dataWidth)).setWidth 32 := by
    rw [readValues, if_pos (by omega), entries]
    exact List.map_congr_left fun i member => read i (List.mem_range.mp member)
  have value : InOrder a (mount csr port true address rest) address buffer board vs ↔
      (List.range n).map (fun i => decoded a
        (port.mem board.register.memory (i % 2 ^ a.dataWidth))) = vs.map (decoded a) := by
    simp only [InOrder, call, succeeds_reads_iff, ← cap, words, Outcome.words.injEq, exists_eq_left,
      array_value, memory, Option.isNone_none, if_true, Except.ok.injEq, List.map_map]
    simp only [Function.comp_def, decoded_entry width narrow]
  rw [value]
  by_cases short : a.dataDepth ≤ 65535
  · have all : n = a.dataDepth := by omega
    rw [all, map_range_eq_iff 0 full]
    exact ⟨fun each => ⟨short, each⟩, fun each => each.2⟩
  · constructor
    · intro same
      have length := congrArg List.length same
      simp only [List.length_map, List.length_range] at length
      omega
    · intro each
      exact absurd each.1 short

theorem in_order_ram {ρ : Type*} {registers : Bus ρ} {h : ℕ} {address : Word} {buffer : ℕ → Word}
    (hp : a.axiHpIndex = some h) (ports : h < 4) (device : ρ × (ℕ → BitVec 64)) :
    InOrder a (withRam ramStart registers) address buffer device vs ↔
      2 * a.dataDepth < 2 ^ 23 ∧ h * 2 ^ 23 + 8 * a.dataDepth ≤ 2 ^ 25 ∧ ∀ i < a.dataDepth,
        a.data.toPythonElement ((device.2 (unit h i)).setWidth 32).toNat =
          decoded a (vs.getD i 0) := by
  have area : a.data.ramOffset = some (h * 0x800000) := by
    rw [show a.data.ramOffset = a.axiHpIndex.map (· * 0x800000) from rfl, hp]
    rfl
  have call : readOp a.data address =
      .readFromRam (BitVec.ofNat 32 (h * 0x800000)) (a.dataDepth * 2) := by
    rw [readOp, area]
    rfl
  have place : (BitVec.ofNat 32 (h * 0x800000)).toNat % ramSize = h * 2 ^ 23 := by
    rw [BitVec.toNat_ofNat, ramSize]
    omega
  have aligned : ramStart + h * 2 ^ 23 = 8 * unit h 0 := by
    rw [unit, ramStart]
    omega
  have bytes : 4 * (a.dataDepth * 2) = 8 * a.dataDepth := by omega
  have words := every_other_ram registers aligned a.dataDepth device
  have value : InOrder a (withRam ramStart registers) address buffer device vs ↔
      a.dataDepth * 2 < 2 ^ 23 ∧ h * 2 ^ 23 + 8 * a.dataDepth ≤ ramSize ∧
        (List.range a.dataDepth).map (fun i =>
          a.data.toPythonElement ((device.2 (unit h 0 + i)).setWidth 32).toNat) =
            vs.map (decoded a) := by
    simp only [InOrder, call, succeeds_read_from_ram_iff, masked_offset, place, bytes,
      Outcome.words.injEq, and_assoc, exists_and_left, exists_eq_left, array_value, hp,
      Option.isNone_some, Bool.false_eq_true, if_false, words, Except.ok.injEq, List.map_map,
      Function.comp_def]
  have behind (i : ℕ) : unit h 0 + i = unit h i := by
    rw [unit, unit, Nat.add_zero]
  rw [value, map_range_eq_iff 0 full, Nat.mul_comm a.dataDepth 2]
  simp only [behind]
  rfl

end Reading

end Pypga.Modules.DataAttribute
