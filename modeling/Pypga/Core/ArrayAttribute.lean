/- GID: Pypga/Core/ArrayAttribute
   generality: G
   digest: Reading an array attribute from Python, from a memory register or from its area of the RAM. -/

import Pypga.Core.Registers
import Pypga.Core.RemoteInterface

set_option autoImplicit false
set_option relaxedAutoImplicit false

namespace Pypga.Core.ArrayAttribute

open Pypga.Foundation.LittleEndian
open Pypga.Remote.MonitorServer (Bus ramCopy)
open Pypga.Remote.SocketClient (Op)
open Pypga.Core.Registers
open Pypga.Core.RemoteInterface (readArray)

/-- The call that `__get__` makes for a register that is an array. -/
def readOp (r : FixedPointRegister) (address : Word) : Op :=
  match r.ramOffset with
  | none => readArray address r.depth
  | some offset => .readFromRam (BitVec.ofNat 32 offset) (r.depth * 2)

/-- The slice `[::2]`. -/
def everyOther {α : Type*} : List α → List α
  | [] => []
  | [x] => [x]
  | x :: _ :: rest => x :: everyOther rest

/-- What `__get__` makes of the words; `np.asarray` refuses the iterator that `reversed` makes. -/
def arrayValue (r : FixedPointRegister) (words : List Word) : Except String (List Quotient) :=
  let value := if r.ramOffset.isNone then words else everyOther words
  if r.reverse then .error "float() argument must be a string or a real number"
  else .ok (value.map fun word => r.toPythonElement word.toNat)

def ramByte (ram : ℕ → BitVec 64) (address : ℕ) : Byte :=
  (ram (address / 8) >>> (8 * (address % 8))).setWidth 8

def withRam {ρ : Type*} (ramStart : ℕ) (registers : Bus ρ) : Bus (ρ × (ℕ → BitVec 64)) where
  load a d := ((registers.load a d.1).1, ((registers.load a d.1).2, d.2))
  store a value d := (registers.store a value d.1, d.2)
  fetch offset d := some (ramByte d.2 (ramStart + offset), d)
  handed d := registers.handed d.1
  mapped _ _ _ := rfl

private theorem ram_copy_with_ram {ρ : Type*} (ramStart : ℕ) (registers : Bus ρ) (offset n : ℕ)
    (d : ρ × (ℕ → BitVec 64)) :
    ramCopy (withRam ramStart registers) offset n d =
      ((List.range n).map fun k => ramByte d.2 (ramStart + offset + k), d) := by
  induction n generalizing offset with
  | zero => rfl
  | succ n ih =>
    have fetched : (withRam ramStart registers).fetch offset d =
        some (ramByte d.2 (ramStart + offset), d) := rfl
    rw [ramCopy, fetched]
    simp only [ih, List.range_succ_eq_map, List.map_cons, List.map_map, Nat.add_zero]
    have later : ∀ k ∈ List.range n, ramByte d.2 (ramStart + (offset + 1) + k) =
        ((fun k => ramByte d.2 (ramStart + offset + k)) ∘ Nat.succ) k := by
      intro k _
      have same : ramStart + (offset + 1) + k = ramStart + offset + (k + 1) := by omega
      rw [same]
      rfl
    rw [List.map_congr_left later]

private theorem every_other_decode (f : ℕ → Byte) (n : ℕ) :
    everyOther (decode ((List.range (8 * n)).map f)) =
      (List.range n).map fun i =>
        ofBytes (f (8 * i)) (f (8 * i + 1)) (f (8 * i + 2)) (f (8 * i + 3)) := by
  induction n generalizing f with
  | zero => rfl
  | succ n ih =>
    have bytes : List.range (8 * (n + 1)) =
        [0, 1, 2, 3, 4, 5, 6, 7] ++ (List.range (8 * n)).map (8 + ·) := by
      rw [Nat.mul_succ, Nat.add_comm, List.range_add]
      rfl
    have later : ∀ i ∈ List.range n,
        ofBytes (f (8 + 8 * i)) (f (8 + (8 * i + 1))) (f (8 + (8 * i + 2))) (f (8 + (8 * i + 3))) =
          ofBytes (f (8 * (i + 1))) (f (8 * (i + 1) + 1)) (f (8 * (i + 1) + 2))
            (f (8 * (i + 1) + 3)) := by
      intro i _
      have shift (k : ℕ) : 8 + (8 * i + k) = 8 * (i + 1) + k := by omega
      rw [shift, shift, shift, Nat.add_comm 8 (8 * i)]
      rfl
    rw [bytes, List.map_append, List.map_map, List.range_succ_eq_map, List.map_cons]
    simp only [List.map_cons, List.map_nil, List.cons_append, List.nil_append, decode, everyOther]
    rw [ih]
    simp only [Function.comp_apply]
    rw [List.map_congr_left later, List.map_map]
    rfl

private theorem of_bytes_unit (ram : ℕ → BitVec 64) (unit : ℕ) :
    ofBytes (ramByte ram (8 * unit)) (ramByte ram (8 * unit + 1)) (ramByte ram (8 * unit + 2))
      (ramByte ram (8 * unit + 3)) = (ram unit).setWidth 32 := by
  have byte (k : ℕ) (inside : k < 8) :
      ramByte ram (8 * unit + k) = (ram unit >>> (8 * k)).setWidth 8 := by
    have index : (8 * unit + k) / 8 = unit := by omega
    have place : (8 * unit + k) % 8 = k := by omega
    rw [ramByte, index, place]
  have first := byte 0 (by decide)
  rw [Nat.add_zero] at first
  rw [first, byte 1 (by decide), byte 2 (by decide), byte 3 (by decide)]
  apply BitVec.eq_of_toNat_eq
  simp only [ofBytes, BitVec.toNat_ofNat, BitVec.toNat_setWidth, BitVec.toNat_ushiftRight,
    Nat.shiftRight_eq_div_pow]
  omega

theorem every_other_ram {ρ : Type*} (registers : Bus ρ) {ramStart offset first : ℕ}
    (aligned : ramStart + offset = 8 * first) (n : ℕ) (d : ρ × (ℕ → BitVec 64)) :
    everyOther (decode (ramCopy (withRam ramStart registers) offset (8 * n) d).1) =
      (List.range n).map fun i => (d.2 (first + i)).setWidth 32 := by
  rw [ram_copy_with_ram, every_other_decode]
  apply List.map_congr_left
  intro i _
  have place (k : ℕ) : ramStart + offset + (8 * i + k) = 8 * (first + i) + k := by omega
  rw [← of_bytes_unit, place 1, place 2, place 3]
  exact congrArg (fun b => ofBytes (ramByte d.2 b) _ _ _) (place 0)

end Pypga.Core.ArrayAttribute
