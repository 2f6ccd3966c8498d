/- GID: Pypga/Core/AccessSequence
   generality: G
   digest: Over all sequences of accesses a read/write memory register refines an indexed array. -/

import Pypga.Core.IndexedArray

set_option autoImplicit false
set_option relaxedAutoImplicit false

namespace Pypga.Core.AccessSequence

open Pypga.Core.MemoryRegister
open Pypga.Core.IndexedArray

inductive Access (width depth : ℕ)
  | index (i : Fin depth)
  | value (v : BitVec width)
  | read

structure Timed (width depth : ℕ) where
  access : Access width depth
  late : ℕ

structure Machine (width : ℕ) where
  array : Selection width
  fresh : Bool

variable {width depth bits : ℕ} {κ μ : Type*}

namespace Machine

def next (a : Machine width) : Access width depth → Machine width
  | .index i => ⟨{ a.array with idx := i }, true⟩
  | .value v => ⟨a.array.put v, false⟩
  | .read => a

/-- What a read must return, if that is said at all. -/
def answer (a : Machine width) : Access width depth → List (Option (BitVec width))
  | .read => [if a.fresh then some a.array.get else none]
  | _ => []

def run (steps : List (Timed width depth)) (a : Machine width) : Machine width :=
  steps.foldl (fun a s => a.next s.access) a

def answers : List (Timed width depth) → Machine width → List (Option (BitVec width))
  | [], _ => []
  | s :: steps, a => a.answer s.access ++ answers steps (a.next s.access)

end Machine

def word (bits : ℕ) : Access width depth → Option (BitVec bits)
  | .index i => some ((BitVec.ofNat bits i <<< 1) ||| BitVec.ofNat bits 1)
  | .value v => some (v.setWidth bits <<< 1)
  | .read => none

section Gateware

variable (csr : CsrStorage (width + 1) κ bits) (port : MemoryPort width depth μ)

def perform (s : Timed width depth) (r : Register width depth κ μ) : Register width depth κ μ :=
  settle csr port false (word bits s.access) (5 + s.late) r

def performAll (steps : List (Timed width depth)) (r : Register width depth κ μ) :
    Register width depth κ μ := steps.foldl (fun r s => perform csr port s r) r

def reading (r : Register width depth κ μ) : Access width depth → List (BitVec (width + 1))
  | .read => [csr.storage r.csr]
  | _ => []

def readings : List (Timed width depth) → Register width depth κ μ → List (BitVec (width + 1))
  | [], _ => []
  | s :: steps, r => reading csr r s.access ++ readings steps (perform csr port s r)

structure PoweredUp (r : Register width depth κ μ) : Prop where
  quiet : Quiet csr r
  adr : r.adr = 0

end Gateware

def Answers (got : BitVec (width + 1)) (wanted : Option (BitVec width)) : Prop :=
  ∀ v, wanted = some v → got = v.setWidth (width + 1)

/-- The register implements the machine. -/
structure Implements (csr : CsrStorage (width + 1) κ bits) (port : MemoryPort width depth μ)
    (r : Register width depth κ μ) (a : Machine width) : Prop where
  represents : Represents csr port a.fresh r a.array
  inside : a.array.idx < depth

private theorem value_word_double {v : BitVec width} (wide : width + 1 ≤ bits) :
    (v.setWidth bits <<< 1).toNat = 2 * v.toNat := by
  have small := v.isLt
  have power : 2 ^ (width + 1) ≤ 2 ^ bits := Nat.pow_le_pow_right (by omega) wide
  rw [Nat.pow_succ] at power
  have fits : v.toNat < 2 ^ bits := by omega
  have double : v.toNat * 2 < 2 ^ bits := by omega
  rw [BitVec.toNat_shiftLeft, BitVec.toNat_setWidth, Nat.shiftLeft_eq, pow_one,
    Nat.mod_eq_of_lt fits, Nat.mod_eq_of_lt double, Nat.mul_comm]

section Steps

variable {csr : CsrStorage (width + 1) κ bits} {port : MemoryPort width depth μ}
variable (wide : width + 1 ≤ bits) (indices : depth ≤ 2 ^ width)
include wide indices

private theorem perform_implements {r : Register width depth κ μ} {a : Machine width}
    (implements : Implements csr port r a) (s : Timed width depth) :
    Implements csr port (perform csr port s r) (a.next s.access) := by
  obtain ⟨represents, inside⟩ := implements
  have power : 2 ^ (width + 1) ≤ 2 ^ bits := Nat.pow_le_pow_right (by omega) wide
  rw [Nat.pow_succ] at power
  unfold perform
  cases s.access with
  | index i =>
    have small := i.isLt
    have selects : ((BitVec.ofNat bits i <<< 1) ||| BitVec.ofNat bits 1).toNat = 2 * (i : ℕ) + 1 :=
      odd_word_to_nat i (by omega)
    have half : (2 * (i : ℕ) + 1) / 2 % 2 ^ width = i := by
      rw [show (2 * (i : ℕ) + 1) / 2 = i by omega, Nat.mod_eq_of_lt (by omega)]
    have four : 5 + s.late = 4 + (1 + s.late) := by omega
    have held : Holds csr port false r a.array.mem := .inl ⟨a.fresh, a.array.idx, represents⟩
    have refined := odd_refines ((BitVec.ofNat bits i <<< 1) ||| BitVec.ofNat bits 1)
      (by rw [selects]; omega) (by rw [selects, half]; exact small) held (1 + s.late)
    rw [selects, half, ← four] at refined
    exact ⟨refined, small⟩
  | value v =>
    have double := value_word_double (v := v) wide
    have whole : payload ((v.setWidth bits <<< 1).setWidth (width + 1)) = v := by
      apply BitVec.eq_of_toNat_eq
      rw [payload_to_nat, double, Nat.mul_div_cancel_left _ (by decide), Nat.mod_eq_of_lt v.isLt]
    have two : 5 + s.late = 2 + (3 + s.late) := by omega
    have refined := even_refines (v.setWidth bits <<< 1) (by rw [double]; omega) represents
      inside (3 + s.late)
    rw [whole, ← two] at refined
    exact ⟨refined, inside⟩
  | read => exact ⟨idle_refines represents _, inside⟩

omit wide indices in
private theorem reading_answers {r : Register width depth κ μ} {a : Machine width}
    (implements : Implements csr port r a) (access : Access width depth) :
    List.Forall₂ Answers (reading csr r access) (a.answer access) := by
  cases access with
  | read =>
    refine .cons ?_ .nil
    intro v wanted
    split at wanted
    · rename_i fresh
      rw [implements.represents.shown fresh, Option.some.inj wanted]
    · cases wanted
  | _ => exact .nil

/-- Whatever the accesses are, as long as they are six cycles apart, the register holds the entries
and the index of the machine, and what is read after an index word is the selected entry. -/
theorem accesses_refine (nontrivial : 2 ≤ depth) {r : Register width depth κ μ}
    (powered : PoweredUp csr r) (steps : List (Timed width depth)) :
    port.mem (performAll csr port steps r).memory =
        (Machine.run steps ⟨⟨port.mem r.memory, 0⟩, false⟩).array.mem ∧
      (performAll csr port steps r).adr.toNat =
        (Machine.run steps ⟨⟨port.mem r.memory, 0⟩, false⟩).array.idx ∧
      List.Forall₂ Answers (readings csr port steps r)
        (Machine.answers steps ⟨⟨port.mem r.memory, 0⟩, false⟩) := by
  have start : Implements csr port r ⟨⟨port.mem r.memory, 0⟩, false⟩ := by
    refine ⟨⟨powered.quiet, rfl, ?_, fun fresh => by cases fresh⟩, show 0 < depth by omega⟩
    rw [powered.adr]
    rfl
  generalize (⟨⟨port.mem r.memory, 0⟩, false⟩ : Machine width) = a at start ⊢
  clear powered
  induction steps generalizing r a with
  | nil => exact ⟨start.represents.mem, start.represents.idx, .nil⟩
  | cons s steps ih =>
    have next := perform_implements wide indices start s
    obtain ⟨mem, idx, rest⟩ := ih _ next
    exact ⟨mem, idx, List.rel_append (reading_answers start s.access) rest⟩

end Steps

def powerUp (init : ℕ → BitVec width) :
    Register width depth (BitVec (width + 1) × Bool) ((ℕ → BitVec width) × BitVec (adrWidth depth)) where
  csr := (0, false)
  memory := (init, 0)
  adr := 0
  wePipeline₀ := false
  wePipeline₁ := false
  csrWe := false
  datW := 0
  we := false

private theorem powered_up (init : ℕ → BitVec width) :
    PoweredUp (csrStorage (width + 1) bits) (powerUp init : Register width depth _ _) :=
  ⟨⟨rfl, rfl, rfl, rfl, rfl⟩, rfl⟩

def writeThenRead : List (Timed 2 3) := [⟨.index 1, 0⟩, ⟨.value 3, 2⟩, ⟨.index 1, 0⟩, ⟨.read, 0⟩]

theorem accesses_refine_write_then_read :
    (writeFirst 2 3).mem (performAll (csrStorage 3) (writeFirst 2 3) writeThenRead (powerUp fun _ => 0)).memory =
        (Machine.run writeThenRead ⟨⟨fun _ => 0, 0⟩, false⟩).array.mem ∧
      (performAll (csrStorage 3) (writeFirst 2 3) writeThenRead (powerUp fun _ => 0)).adr.toNat =
        (Machine.run writeThenRead ⟨⟨fun _ => 0, 0⟩, false⟩).array.idx ∧
      List.Forall₂ Answers (readings (csrStorage 3) (writeFirst 2 3) writeThenRead (powerUp fun _ => 0))
        (Machine.answers writeThenRead ⟨⟨fun _ => 0, 0⟩, false⟩) :=
  accesses_refine (by decide) (by decide) (by decide) (powered_up fun _ => 0) writeThenRead

end Pypga.Core.AccessSequence
