/- GID: Pypga/Core/MemoryRegister
   generality: G
   digest: The gateware of a register with depth: index latch, memory ports and read-back pipeline. -/

import Pypga.Migen.Operands
import Mathlib.Logic.Function.Iterate

set_option autoImplicit false
set_option relaxedAutoImplicit false

namespace Pypga.Core.MemoryRegister

open Pypga.Migen.Operands (bitLength lt_two_pow_bit_length)

/-- What the register relies on of a `CSRStorage` with `write_from_dev`: a bus write keeps the
low bits of the word, and `re` is high in the one cycle in which they are new. The words have the
32 bits of the bus of the server, unless they are given more. -/
structure CsrStorage (size : ℕ) (κ : Type*) (bits : ℕ := 32) where
  storage : κ → BitVec size
  re : κ → Bool
  next : Option (BitVec bits) → Bool → BitVec size → κ → κ
  storage_bus : ∀ (word : BitVec bits) we datW s,
    storage (next (some word) we datW s) = word.setWidth size
  storage_device : ∀ datW s, storage (next none true datW s) = datW
  storage_hold : ∀ datW s, storage (next none false datW s) = storage s
  re_next : ∀ bus we datW s, re (next bus we datW s) = bus.isSome

/-- The registers of a `CSRStorage`. -/
def csrStorage (size : ℕ) (bits : ℕ := 32) : CsrStorage size (BitVec size × Bool) bits where
  storage s := s.1
  re s := s.2
  next bus we datW s :=
    match bus with
    | some word => (word.setWidth size, true)
    | none => (if we then datW else s.1, false)
  storage_bus _ _ _ _ := rfl
  storage_device _ _ := rfl
  storage_hold _ _ := rfl
  re_next bus _ _ _ := by cases bus <;> rfl

/-- `Signal(max=depth)`. -/
def adrWidth (depth : ℕ) : ℕ := bitLength ((depth : ℤ) - 1)

theorem lt_two_pow_adr_width {depth i : ℕ} (inside : i < depth) : i < 2 ^ adrWidth depth := by
  have last : ((depth : ℤ) - 1) = ((depth - 1 : ℕ) : ℤ) := by omega
  have bound := lt_two_pow_bit_length (depth - 1)
  rw [adrWidth, last]
  omega

/-- A write to a memory: the address and the data of a port with `we` high. -/
abbrev Write (width depth : ℕ) : Type := BitVec (adrWidth depth) × BitVec width

/-- What the register relies on of its `Memory`: the port to the bus reads with one cycle of
latency, and at most one port writes. Nothing is said of addresses behind the last entry, or of a
read in the cycle of a write. -/
structure MemoryPort (width depth : ℕ) (μ : Type*) where
  mem : μ → ℕ → BitVec width
  datR : μ → BitVec width
  next : BitVec (adrWidth depth) → Option (Write width depth) → μ → μ
  mem_hold : ∀ adr m, mem (next adr none m) = mem m
  mem_write : ∀ adr (write : Write width depth) m, write.1.toNat < depth →
    mem (next adr (some write) m) = Function.update (mem m) write.1.toNat write.2
  dat_r_next : ∀ adr m, adr.toNat < depth → datR (next adr none m) = mem m adr.toNat

def writeFirst (width depth : ℕ) :
    MemoryPort width depth ((ℕ → BitVec width) × BitVec (adrWidth depth)) where
  mem m := m.1
  datR m := m.1 m.2.toNat
  next adr write m :=
    match write with
    | some (entry, datW) => (Function.update m.1 entry.toNat datW, adr)
    | none => (m.1, adr)
  mem_hold _ _ := rfl
  mem_write _ _ _ _ := rfl
  dat_r_next _ _ _ := rfl

/-- The control state of the register; `re` and `storage` are those of its `CSRStorage`. -/
structure Register (width depth : ℕ) (κ μ : Type*) where
  csr : κ
  memory : μ
  adr : BitVec (adrWidth depth)
  wePipeline₀ : Bool
  wePipeline₁ : Bool
  csrWe : Bool
  datW : BitVec width
  we : Bool

/-- `storage[1:]`, without the control bit. -/
def payload {width : ℕ} (storage : BitVec (width + 1)) : BitVec width :=
  (storage >>> 1).setWidth width

variable {width depth bits : ℕ} {κ μ : Type*}

section Edge

variable (csr : CsrStorage (width + 1) κ bits) (port : MemoryPort width depth μ)

def updateIndex (r : Register width depth κ μ) : Bool :=
  csr.re r.csr && (csr.storage r.csr).getLsbD 0

def updateValue (r : Register width depth κ μ) : Bool :=
  csr.re r.csr && !(csr.storage r.csr).getLsbD 0

/-- One clock edge; `bus` is the word written to the register in this cycle, if any, and `pl`
the write of the gateware, which only a readonly register has a port for. -/
def edge (readonly : Bool) (bus : Option (BitVec bits)) (pl : Option (Write width depth))
    (r : Register width depth κ μ) : Register width depth κ μ where
  csr := csr.next bus r.csrWe ((port.datR r.memory).setWidth (width + 1)) r.csr
  memory := port.next r.adr
    (if readonly then pl else if r.we then some (r.adr, r.datW) else none) r.memory
  adr := if updateIndex csr r then (payload (csr.storage r.csr)).setWidth _ else r.adr
  wePipeline₀ := updateIndex csr r
  wePipeline₁ := r.wePipeline₀
  csrWe := r.wePipeline₁
  datW := payload (csr.storage r.csr)
  we := !readonly && updateValue csr r

def idle (readonly : Bool) (n : ℕ) (r : Register width depth κ μ) : Register width depth κ μ :=
  (edge csr port readonly none none)^[n] r

structure Quiet (r : Register width depth κ μ) : Prop where
  re : csr.re r.csr = false
  wePipeline₀ : r.wePipeline₀ = false
  wePipeline₁ : r.wePipeline₁ = false
  csrWe : r.csrWe = false
  we : r.we = false

end Edge

variable {csr : CsrStorage (width + 1) κ bits} {port : MemoryPort width depth μ} {readonly : Bool}

theorem update_index_of_silent {r : Register width depth κ μ} (silent : csr.re r.csr = false) :
    updateIndex csr r = false := by
  rw [updateIndex, silent]
  rfl

theorem we_edge_of_still {r : Register width depth κ μ} (still : updateValue csr r = false)
    (bus : Option (BitVec bits)) : (edge csr port readonly bus none r).we = false := by
  show (!readonly && updateValue csr r) = false
  rw [still, Bool.and_false]

theorem we_edge_of_silent {r : Register width depth κ μ} (silent : csr.re r.csr = false)
    (bus : Option (BitVec bits)) : (edge csr port readonly bus none r).we = false := by
  apply we_edge_of_still
  rw [updateValue, silent]
  rfl

theorem silent_edge (r : Register width depth κ μ) :
    csr.re (edge csr port readonly none none r).csr = false :=
  csr.re_next _ _ _ _

private theorem write_of_held {r : Register width depth κ μ} (held : r.we = false) :
    (if readonly then none else if r.we then some (r.adr, r.datW) else none) =
      (none : Option (Write width depth)) := by
  rw [held]
  cases readonly <;> rfl

theorem mem_edge_of_held {r : Register width depth κ μ} (held : r.we = false)
    (bus : Option (BitVec bits)) :
    port.mem (edge csr port readonly bus none r).memory = port.mem r.memory := by
  show port.mem (port.next r.adr _ r.memory) = _
  rw [write_of_held held]
  exact port.mem_hold _ _

theorem mem_edge_readonly (r : Register width depth κ μ) (bus : Option (BitVec bits)) :
    port.mem (edge csr port true bus none r).memory = port.mem r.memory :=
  port.mem_hold _ _

theorem adr_edge_of_silent {r : Register width depth κ μ} (silent : csr.re r.csr = false)
    (bus : Option (BitVec bits)) : (edge csr port readonly bus none r).adr = r.adr := by
  show (if updateIndex csr r then _ else _) = _
  rw [update_index_of_silent silent]
  rfl

private theorem storage_edge_of_held {r : Register width depth κ μ} (held : r.csrWe = false) :
    csr.storage (edge csr port readonly none none r).csr = csr.storage r.csr := by
  show csr.storage (csr.next none r.csrWe _ r.csr) = _
  rw [held]
  exact csr.storage_hold _ _

theorem storage_edge_of_csr_we {r : Register width depth κ μ} (write : r.csrWe = true) :
    csr.storage (edge csr port readonly none none r).csr =
      (port.datR r.memory).setWidth (width + 1) := by
  show csr.storage (csr.next none r.csrWe _ r.csr) = _
  rw [write]
  exact csr.storage_device _ _

structure Still (csr : CsrStorage (width + 1) κ bits) (r : Register width depth κ μ) : Prop where
  re : csr.re r.csr = false
  we : r.we = false

structure Passed (csr : CsrStorage (width + 1) κ bits) (port : MemoryPort width depth μ)
    (r s : Register width depth κ μ) : Prop where
  still : Still csr s
  mem : port.mem s.memory = port.mem r.memory
  adr : s.adr = r.adr
  wePipeline₀ : s.wePipeline₀ = false
  wePipeline₁ : s.wePipeline₁ = r.wePipeline₀
  csrWe : s.csrWe = r.wePipeline₁

variable (port readonly) in
theorem passed_edge {r : Register width depth κ μ} (still : Still csr r) :
    Passed csr port r (edge csr port readonly none none r) where
  still := ⟨silent_edge r, we_edge_of_silent still.re none⟩
  mem := mem_edge_of_held still.we none
  adr := adr_edge_of_silent still.re none
  wePipeline₀ := update_index_of_silent still.re
  wePipeline₁ := rfl
  csrWe := rfl

theorem dat_r_edge {r : Register width depth κ μ} (held : r.we = false)
    (inside : r.adr.toNat < depth) :
    port.datR (edge csr port readonly none none r).memory = port.mem r.memory r.adr.toNat := by
  show port.datR (port.next r.adr _ r.memory) = _
  rw [write_of_held held]
  exact port.dat_r_next _ _ inside

structure Unchanged (csr : CsrStorage (width + 1) κ bits) (port : MemoryPort width depth μ)
    (r s : Register width depth κ μ) : Prop where
  quiet : Quiet csr s
  mem : port.mem s.memory = port.mem r.memory
  adr : s.adr = r.adr
  storage : csr.storage s.csr = csr.storage r.csr

variable (port readonly) in
theorem quiet_edge {r : Register width depth κ μ} (quiet : Quiet csr r) :
    Unchanged csr port r (edge csr port readonly none none r) := by
  have passed := passed_edge port readonly ⟨quiet.re, quiet.we⟩
  refine ⟨⟨passed.still.re, passed.wePipeline₀, ?_, ?_, passed.still.we⟩, passed.mem, passed.adr,
    storage_edge_of_held quiet.csrWe⟩
  · rw [passed.wePipeline₁, quiet.wePipeline₀]
  · rw [passed.csrWe, quiet.wePipeline₁]

theorem idle_succ (n : ℕ) (r : Register width depth κ μ) : idle csr port readonly (n + 1) r =
    edge csr port readonly none none (idle csr port readonly n r) :=
  Function.iterate_succ_apply' _ n r

theorem idle_two (r : Register width depth κ μ) : idle csr port readonly 2 r =
    edge csr port readonly none none (edge csr port readonly none none r) := rfl

variable (port readonly) in
theorem quiet_idle {r : Register width depth κ μ} (quiet : Quiet csr r) (n : ℕ) :
    Unchanged csr port r (idle csr port readonly n r) := by
  induction n with
  | zero => exact ⟨quiet, rfl, rfl, rfl⟩
  | succ n ih =>
    have next := quiet_edge port readonly ih.quiet
    rw [idle_succ]
    exact ⟨next.quiet, next.mem.trans ih.mem, next.adr.trans ih.adr,
      next.storage.trans ih.storage⟩

theorem idle_add (m n : ℕ) (r : Register width depth κ μ) :
    idle csr port readonly (m + n) r =
      idle csr port readonly n (idle csr port readonly m r) := by
  rw [Nat.add_comm]
  exact Function.iterate_add_apply _ n m r

end Pypga.Core.MemoryRegister
