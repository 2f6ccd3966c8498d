/- GID: Pypga/Core/IndexedArray
   generality: G
   digest: An array with an index latch, and the memory register as an implementation of it, access by access. -/

import Pypga.Core.MemoryRegister
import Pypga.Remote.MonitorServer

set_option autoImplicit false
set_option relaxedAutoImplicit false

namespace Pypga.Core.IndexedArray

open Pypga.Foundation.LittleEndian (Word)
open Pypga.Core.MemoryRegister
open Pypga.Remote.MonitorServer (indexWord)

structure Selection (width : ℕ) where
  mem : ℕ → BitVec width
  idx : ℕ

namespace Selection

variable {width : ℕ}

def put (v : BitVec width) (a : Selection width) : Selection width :=
  { a with mem := Function.update a.mem a.idx v }

def get (a : Selection width) : BitVec width := a.mem a.idx

end Selection

theorem odd_word_to_nat {bits : ℕ} (i : ℕ) (fits : 2 * i + 1 < 2 ^ bits) :
    ((BitVec.ofNat bits i <<< 1) ||| BitVec.ofNat bits 1).toNat = 2 * i + 1 := by
  have one : (1 : ℕ) < 2 ^ bits := by omega
  have disjoint := Nat.shiftLeft_add_eq_or_of_lt (i := 1) (b := 1) (by decide) i
  simp only [Nat.shiftLeft_eq, pow_one, Nat.mul_comm i 2] at disjoint
  simp only [BitVec.toNat_or, BitVec.toNat_shiftLeft, BitVec.toNat_ofNat,
    Nat.mod_eq_of_lt (show i < 2 ^ bits by omega), Nat.mod_eq_of_lt one, Nat.shiftLeft_eq, pow_one,
    Nat.mul_comm i 2, Nat.mod_eq_of_lt (show 2 * i < 2 ^ bits by omega)]
  exact disjoint.symm

private theorem index_word_to_nat {i : ℕ} (small : i < 2 ^ 31) : (indexWord i).toNat = 2 * i + 1 :=
  odd_word_to_nat i (by omega)

theorem payload_to_nat {width bits : ℕ} (word : BitVec bits) :
    (payload (word.setWidth (width + 1))).toNat = word.toNat / 2 % 2 ^ width := by
  simp only [payload, BitVec.toNat_setWidth, BitVec.toNat_ushiftRight, Nat.shiftRight_one]
  rw [Nat.pow_succ, Nat.mul_comm, Nat.mod_mul_right_div_self, Nat.mod_mod]

theorem control_bit {width bits : ℕ} (word : BitVec bits) :
    (word.setWidth (width + 1)).getLsbD 0 = decide (word.toNat % 2 = 1) := by
  rw [BitVec.getLsbD_setWidth, BitVec.getLsbD, Nat.testBit_zero]
  simp

theorem value_word_to_nat (v : Word) : (v <<< 1).toNat = 2 * v.toNat % 2 ^ 32 := by
  rw [BitVec.toNat_shiftLeft, Nat.shiftLeft_eq, pow_one, Nat.mul_comm]

theorem payload_value {width : ℕ} (narrow : width ≤ 31) (v : Word) :
    payload ((v <<< 1).setWidth (width + 1)) = v.setWidth width := by
  apply BitVec.eq_of_toNat_eq
  have split : 2 ^ 32 = 2 * 2 ^ 31 := rfl
  have wide : 2 ^ width ∣ 2 ^ 31 := Nat.pow_dvd_pow 2 narrow
  rw [payload_to_nat, value_word_to_nat, BitVec.toNat_setWidth, split, Nat.mul_mod_mul_left,
    Nat.mul_div_cancel_left _ (by decide), Nat.mod_mod_of_dvd _ wide]

variable {width depth bits : ℕ} {κ μ : Type*}
variable {csr : CsrStorage (width + 1) κ bits} {port : MemoryPort width depth μ} {readonly : Bool}

/-- A quiet register that implements the array; `fresh` while the index word is the last one
that was written. -/
structure Represents (csr : CsrStorage (width + 1) κ bits) (port : MemoryPort width depth μ)
    (fresh : Bool) (r : Register width depth κ μ) (a : Selection width) : Prop where
  quiet : Quiet csr r
  mem : port.mem r.memory = a.mem
  idx : r.adr.toNat = a.idx
  shown : fresh = true → csr.storage r.csr = a.get.setWidth (width + 1)

theorem Represents.idle {fresh : Bool} {r : Register width depth κ μ} {a : Selection width}
    (represents : Represents csr port fresh r a) (n : ℕ) :
    Represents csr port fresh (MemoryRegister.idle csr port readonly n r) a := by
  have same := quiet_idle port readonly represents.quiet n
  refine ⟨same.quiet, same.mem.trans represents.mem, ?_, fun last => ?_⟩
  · rw [same.adr, represents.idx]
  · rw [same.storage, represents.shown last]

def settle (csr : CsrStorage (width + 1) κ bits) (port : MemoryPort width depth μ) (readonly : Bool)
    (bus : Option (BitVec bits)) (n : ℕ) (r : Register width depth κ μ) : Register width depth κ μ :=
  idle csr port readonly n (edge csr port readonly bus none r)

section Index

variable {word : BitVec bits} (odd : word.toNat % 2 = 1) (inside : word.toNat / 2 % 2 ^ width < depth)
include odd inside

variable (csr port readonly) in
private theorem index_latched (r : Register width depth κ μ) :
    updateIndex csr (edge csr port readonly (some word) none r) = true ∧
      updateValue csr (edge csr port readonly (some word) none r) = false ∧
      (edge csr port readonly none none (edge csr port readonly (some word) none r)).adr.toNat =
        word.toNat / 2 % 2 ^ width := by
  have high : csr.re (edge csr port readonly (some word) none r).csr = true := csr.re_next _ _ _ _
  have new : csr.storage (edge csr port readonly (some word) none r).csr = word.setWidth (width + 1) :=
    csr.storage_bus _ _ _ _
  have control : (word.setWidth (width + 1)).getLsbD 0 = true := by
    rw [control_bit, odd]
    rfl
  have update : updateIndex csr (edge csr port readonly (some word) none r) = true := by
    rw [updateIndex, high, new, control]
    rfl
  refine ⟨update, ?_, ?_⟩
  · rw [updateValue, high, new, control]
    rfl
  · show (if updateIndex csr (edge csr port readonly (some word) none r) then _
      else _ : BitVec _).toNat = word.toNat / 2 % 2 ^ width
    rw [update, if_pos rfl, new, BitVec.toNat_setWidth, payload_to_nat,
      Nat.mod_eq_of_lt (lt_two_pow_adr_width inside)]

variable (csr port readonly word) in
private theorem represents_odd (r : Register width depth κ μ) (n : ℕ) :
    Represents csr port true (settle csr port readonly (some word) (4 + n) r)
      ⟨port.mem (edge csr port readonly none none
        (edge csr port readonly (some word) none r)).memory, word.toNat / 2 % 2 ^ width⟩ := by
  obtain ⟨update, value, adr⟩ :=
    index_latched csr port readonly odd inside r
  rw [settle, idle_add]
  generalize edge csr port readonly (some word) none r = r₁ at update value adr ⊢
  -- the stages of the pipeline, one edge each
  obtain ⟨r₂, is₂⟩ : ∃ r₂, r₂ = edge csr port readonly none none r₁ := ⟨_, rfl⟩
  obtain ⟨r₃, is₃⟩ : ∃ r₃, r₃ = edge csr port readonly none none r₂ := ⟨_, rfl⟩
  obtain ⟨r₄, is₄⟩ : ∃ r₄, r₄ = edge csr port readonly none none r₃ := ⟨_, rfl⟩
  obtain ⟨r₅, is₅⟩ : ∃ r₅, r₅ = edge csr port readonly none none r₄ := ⟨_, rfl⟩
  have last : idle csr port readonly 4 r₁ = r₅ := by rw [is₅, is₄, is₃, is₂]; rfl
  rw [last, ← is₂]
  rw [← is₂] at adr
  have still : Still csr r₂ := by
    rw [is₂]
    exact ⟨silent_edge r₁, we_edge_of_still value none⟩
  have first : r₂.wePipeline₀ = true := by rw [is₂]; exact update
  have third := passed_edge port readonly still
  rw [← is₃] at third
  have fourth := passed_edge port readonly third.still
  rw [← is₄] at fourth
  have fifth := passed_edge port readonly fourth.still
  rw [← is₅] at fifth
  have write : r₄.csrWe = true := by rw [fourth.csrWe, third.wePipeline₁, first]
  have read : port.datR r₄.memory = port.mem r₂.memory (word.toNat / 2 % 2 ^ width) := by
    rw [is₄, dat_r_edge third.still.we (by rw [third.adr, adr]; exact inside), third.mem, third.adr,
      adr]
  have shown : csr.storage r₅.csr = (port.datR r₄.memory).setWidth (width + 1) := by
    rw [is₅, storage_edge_of_csr_we write]
  refine Represents.idle ⟨⟨fifth.still.re, fifth.wePipeline₀, ?_, ?_, fifth.still.we⟩, ?_, ?_,
    fun _ => ?_⟩ n
  · rw [fifth.wePipeline₁, fourth.wePipeline₀]
  · rw [fifth.csrWe, fourth.wePipeline₁, third.wePipeline₀]
  · rw [fifth.mem, fourth.mem, third.mem]
  · rw [fifth.adr, fourth.adr, third.adr, adr]
  · rw [shown, read]
    rfl

end Index

/-- A register in which an index word will find these entries: a quiet one that represents them,
or a readonly one in any state. -/
def Holds (csr : CsrStorage (width + 1) κ bits) (port : MemoryPort width depth μ) (readonly : Bool)
    (r : Register width depth κ μ) (mem : ℕ → BitVec width) : Prop :=
  (∃ fresh idx, Represents csr port fresh r ⟨mem, idx⟩) ∨
    readonly = true ∧ port.mem r.memory = mem

theorem odd_refines (word : BitVec bits) (odd : word.toNat % 2 = 1)
    (inside : word.toNat / 2 % 2 ^ width < depth) {r : Register width depth κ μ}
    {mem : ℕ → BitVec width} (holds : Holds csr port readonly r mem) (n : ℕ) :
    Represents csr port true (settle csr port readonly (some word) (4 + n) r)
      ⟨mem, word.toNat / 2 % 2 ^ width⟩ := by
  have after := represents_odd csr port readonly word odd inside r n
  have same : port.mem (edge csr port readonly none none
      (edge csr port readonly (some word) none r)).memory = mem := by
    rcases holds with ⟨fresh, idx, represents⟩ | ⟨rfl, is⟩
    · have held : (edge csr port readonly (some word) none r).we = false :=
        we_edge_of_silent represents.quiet.re _
      rw [mem_edge_of_held held, mem_edge_of_held represents.quiet.we, represents.mem]
    · rw [mem_edge_readonly, mem_edge_readonly, is]
  rw [same] at after
  exact after

structure Pending (csr : CsrStorage (width + 1) κ bits) (port : MemoryPort width depth μ)
    (v : BitVec width) (r s : Register width depth κ μ) : Prop where
  silent : csr.re s.csr = false
  we : s.we = true
  datW : s.datW = v
  adr : s.adr = r.adr
  mem : port.mem s.memory = port.mem r.memory
  wePipeline₀ : s.wePipeline₀ = false
  wePipeline₁ : s.wePipeline₁ = false

variable (port) in
theorem value_latched {word : BitVec bits} (even : word.toNat % 2 = 0)
    {r : Register width depth κ μ} (quiet : Quiet csr r) :
    Pending csr port (payload (word.setWidth (width + 1))) r
      (edge csr port false none none (edge csr port false (some word) none r)) := by
  have high : csr.re (edge csr port false (some word) none r).csr = true := csr.re_next _ _ _ _
  have new : csr.storage (edge csr port false (some word) none r).csr =
      word.setWidth (width + 1) := csr.storage_bus _ _ _ _
  have control : (word.setWidth (width + 1)).getLsbD 0 = false := by
    rw [control_bit, even]
    rfl
  have index : updateIndex csr (edge csr port false (some word) none r) = false := by
    rw [updateIndex, high, new, control]
    rfl
  have value : updateValue csr (edge csr port false (some word) none r) = true := by
    rw [updateValue, high, new, control]
    rfl
  have first : (edge csr port false (some word) none r).wePipeline₀ = false :=
    update_index_of_silent quiet.re
  have adr : (edge csr port false (some word) none r).adr = r.adr :=
    adr_edge_of_silent quiet.re _
  have mem : port.mem (edge csr port false (some word) none r).memory = port.mem r.memory :=
    mem_edge_of_held quiet.we _
  have held : (edge csr port false (some word) none r).we = false :=
    we_edge_of_silent quiet.re _
  generalize edge csr port false (some word) none r = r₁ at *
  refine ⟨silent_edge r₁, value, ?_, ?_, (mem_edge_of_held held none).trans mem, index, first⟩
  · show payload (csr.storage r₁.csr) = _
    rw [new]
  · show (if updateIndex csr r₁ then _ else _) = _
    rw [index, ← adr]
    rfl

theorem even_refines (word : BitVec bits) (even : word.toNat % 2 = 0) {fresh : Bool}
    {r : Register width depth κ μ} {a : Selection width} (represents : Represents csr port fresh r a)
    (inside : a.idx < depth) (n : ℕ) :
    Represents csr port false (settle csr port false (some word) (2 + n) r)
      (a.put (payload (word.setWidth (width + 1)))) := by
  have pending := value_latched port even represents.quiet
  rw [settle, idle_add, idle_two]
  generalize edge csr port false none none (edge csr port false (some word) none r) = s at *
  have here : s.adr.toNat = a.idx := by rw [pending.adr, represents.idx]
  have stored : port.mem (edge csr port false none none s).memory =
      Function.update a.mem a.idx (payload (word.setWidth (width + 1))) := by
    show port.mem (port.next s.adr (if s.we then some (s.adr, s.datW) else none) s.memory) = _
    rw [pending.we, if_pos rfl, port.mem_write _ _ _ (by rw [here]; exact inside), pending.mem,
      represents.mem, here, pending.datW]
  have same : (edge csr port false none none s).adr = s.adr := adr_edge_of_silent pending.silent none
  refine Represents.idle ⟨⟨silent_edge s, update_index_of_silent pending.silent,
    pending.wePipeline₀, pending.wePipeline₁, we_edge_of_silent pending.silent none⟩, stored, ?_,
    fun fresh => by cases fresh⟩ n
  rw [same, here]
  rfl

section Words

variable {server : CsrStorage (width + 1) κ}

section Index

variable {i : ℕ} (small : i < 2 ^ 31) (inside : i % 2 ^ width < depth)
include small inside

omit inside in
private theorem index_word_selects : (indexWord i).toNat % 2 = 1 ∧ (indexWord i).toNat / 2 = i := by
  rw [index_word_to_nat small]
  omega

variable (server port readonly) in
theorem represents_index (r : Register width depth κ μ) (n : ℕ) :
    Represents server port true (settle server port readonly (some (indexWord i)) (4 + n) r)
      ⟨port.mem (edge server port readonly none none
        (edge server port readonly (some (indexWord i)) none r)).memory, i % 2 ^ width⟩ := by
  obtain ⟨odd, half⟩ := index_word_selects small
  have after := represents_odd server port readonly (indexWord i) odd (by rwa [half]) r n
  rwa [half] at after

theorem index_refines {r : Register width depth κ μ} {mem : ℕ → BitVec width}
    (holds : Holds server port readonly r mem) (n : ℕ) :
    Represents server port true (settle server port readonly (some (indexWord i)) (4 + n) r)
      ⟨mem, i % 2 ^ width⟩ := by
  obtain ⟨odd, half⟩ := index_word_selects small
  have after := odd_refines (indexWord i) odd (by rwa [half]) holds n
  rwa [half] at after

end Index

theorem value_refines (narrow : width ≤ 31) (v : Word) {fresh : Bool}
    {r : Register width depth κ μ} {a : Selection width} (represents : Represents server port fresh r a)
    (inside : a.idx < depth) (n : ℕ) :
    Represents server port false (settle server port false (some (v <<< 1)) (2 + n) r)
      (a.put (v.setWidth width)) := by
  have even : (v <<< 1).toNat % 2 = 0 := by
    rw [value_word_to_nat]
    omega
  rw [← payload_value narrow]
  exact even_refines (v <<< 1) even represents inside n

end Words

theorem idle_refines {fresh : Bool} {r : Register width depth κ μ} {a : Selection width}
    (represents : Represents csr port fresh r a) (n : ℕ) :
    Represents csr port fresh (settle csr port readonly none n r) a := by
  have one : settle csr port readonly none n r = idle csr port readonly (1 + n) r := by
    rw [idle_add]
    rfl
  rw [one]
  exact represents.idle (1 + n)

theorem read_refines {r : Register width depth κ μ} {a : Selection width}
    (represents : Represents csr port true r a) :
    (csr.storage r.csr).setWidth 32 = a.get.setWidth 32 := by
  rw [represents.shown rfl]
  apply BitVec.eq_of_toNat_eq
  have bound := a.get.isLt
  have wider : 2 ^ width ≤ 2 ^ (width + 1) := Nat.pow_le_pow_right (by decide) (Nat.le_succ width)
  rw [BitVec.toNat_setWidth, BitVec.toNat_setWidth, BitVec.toNat_setWidth,
    Nat.mod_eq_of_lt (lt_of_lt_of_le bound wider)]

end Pypga.Core.IndexedArray
