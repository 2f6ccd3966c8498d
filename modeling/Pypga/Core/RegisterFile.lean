/- GID: Pypga/Core/RegisterFile
   generality: G
   digest: The attributes of a module tree that are registers without depth, and the registers behind them. -/

import Pypga.Core.RegisterNames
import Pypga.Core.RemoteInterface
import Pypga.Core.WordEncoding

set_option autoImplicit false
set_option relaxedAutoImplicit false

namespace Pypga.Core.RegisterFile

open Pypga.Foundation.LittleEndian (Word)
open Pypga.Remote.MonitorServer
open Pypga.Remote.SocketClient (Op Outcome Error)
open Pypga.Core.Registers (NumberRegister BoolRegister FixedPointRegister)
open Pypga.Core.WordEncoding (AnyRegister)
open Pypga.Core.RegisterNames
open Pypga.Core.RemoteInterface (readValue)

/-- The class of an attribute; a trigger has the attributes of `_Register`. -/
inductive Kind
  | value (r : AnyRegister)
  | trigger (r : Registers.Register)

namespace Kind

def toRegister : Kind → Registers.Register
  | value r => r.toRegister
  | trigger r => r

abbrev width (k : Kind) : ℕ := k.toRegister.width

def readonly : Kind → Bool
  | value r => r.toRegister.readonly
  | trigger _ => false

def scalar : Kind → Bool
  | value r => r.toRegister.depth = 1 ∧ r.toRegister.ramOffset = none
  | trigger _ => true

end Kind

inductive Exception
  | attributeError
  | keyError
  | overflowError
  | typeError
  | zeroDivisionError
  | client (e : Error)
  deriving DecidableEq

/-- The values of attributes; `sendTrigger` is the function that a trigger returns. -/
inductive PyValue
  | none
  | int (v : ℤ)
  | bool (b : Bool)
  | float (v : ℚ)
  | sendTrigger
  deriving DecidableEq

def toPython : AnyRegister → ℤ → Except Exception PyValue
  | .register r, word => .ok (.int (r.toPython word))
  | .bool r, word => .ok (.bool (r.toPython word))
  | .number r, word => .ok (.int (r.toPython word))
  | .fixedPoint r, word =>
    match r.toPython word with
    | some v => .ok (.float v)
    | .none => .error .zeroDivisionError

/-- `instance.name`, `instance.name = value` and `instance.name()`. -/
inductive Statement
  | get (r : Register)
  | set (r : Register) (value : ℚ)
  | call (r : Register)
  deriving DecidableEq

def Statement.register : Statement → Register
  | get r | set r _ | call r => r

/-- What `__get__` and `__set__` do first. -/
inductive Plan
  | raises (e : Exception)
  | returns (v : PyValue)
  | calls (c : Call ℤ)

variable (kind : Register → Kind)

/-- The text of the error of a read-only register reads `self.instance`, which there is not. -/
def plan : Statement → Plan
  | .get r =>
    match kind r with
    | .value _ => .calls .read
    | .trigger _ => .returns .sendTrigger
  | .set r value =>
    match kind r with
    | .value k =>
      if k.toRegister.readonly ∨ k.toRegister.ramOffset.isSome then .raises .attributeError
      else .calls (.write (k.encoded value))
    | .trigger _ => .raises .attributeError
  | .call r =>
    match kind r with
    | .value _ => .calls .read
    | .trigger _ => .calls (.write 0)

def result : Statement → Outcome → Except Exception PyValue
  | _, .raised e => .error (.client e)
  | _, .done => .ok .none
  | .get r, .words ws => read r ws
  | .set _ _, .words _ => .ok .none
  | .call r, .words ws => do
    let _ ← read r ws
    .error .typeError
where
  read (r : Register) (ws : List Word) : Except Exception PyValue :=
    match kind r, readValue ws with
    | .value k, .int v => toPython k v
    | _, _ => .error .typeError

section Interface

variable (uint32 : ℤ → Option Word)

/-- `read_from_address` and `write_to_address`: the values become an array of `uint32`. -/
def remoteOp : Access ℤ → Except Exception Op
  | .readFromAddress address length => .ok (.reads (BitVec.ofNat 32 address) length)
  | .writeToAddress address value =>
    match (value.elim (fun v => [v]) id).mapM uint32 with
    | some words => .ok (.writes (BitVec.ofNat 32 address) words)
    | none => .error .overflowError

variable (m : CsrMap)

def clientOp (s : Statement) : Except Exception (PyValue ⊕ Op) :=
  match plan kind s with
  | .raises e => .error e
  | .returns v => .ok (.inl v)
  | .calls c =>
    match m.call s.register.getFullName c with
    | none => .error .keyError
    | some access => (remoteOp uint32 access).map .inr

def clientOps : List Statement → List Op
  | [] => []
  | s :: rest =>
    match clientOp kind uint32 m s with
    | .ok (.inr op) => op :: clientOps rest
    | _ => clientOps rest

def results : List Statement → List Outcome → List (Except Exception PyValue)
  | [], _ => []
  | s :: rest, outcomes =>
    match clientOp kind uint32 m s, outcomes with
    | .error e, _ => .error e :: results rest outcomes
    | .ok (.inl v), _ => .ok v :: results rest outcomes
    | .ok (.inr _), [] => []
    | .ok (.inr _), o :: later => result kind s o :: results rest later

end Interface

/-- The logic behind the registers: the signals it gives to read-only ones, and what it does until
the next access, with the storages and the register that was written. -/
structure Logic (ρ : Type*) where
  status : ρ → (r : Register) → BitVec (kind r).width
  next : ((r : Register) → BitVec (kind r).width) → Option Register → ρ → ρ

structure Machine (ρ : Type*) where
  storage : (r : Register) → BitVec (kind r).width
  logic : ρ

namespace Machine

variable {kind} {ρ : Type*} (logic : Logic kind ρ)

def value (r : Register) (m : Machine kind ρ) : BitVec (kind r).width :=
  if (kind r).readonly then logic.status m.logic r else m.storage r

def pass (written : Option Register) (m : Machine kind ρ) : Machine kind ρ :=
  { m with logic := logic.next m.storage written m.logic }

def store (r : Register) (word : BitVec (kind r).width) (m : Machine kind ρ) : Machine kind ρ :=
  if (kind r).readonly then m.pass logic none
  else pass logic (some r) { m with storage := Function.update m.storage r word }

end Machine

section Board

variable (rs : List Register) (address : Register → Word)

def decoder (a : Word) : Option Register :=
  (rs.filter fun r => (kind r).scalar).find? fun r => address r = a

variable {kind} {ρ : Type*} (logic : Logic kind ρ)

/-- The registers at their addresses, in front of all other addresses. -/
def csrBus (rest : Bus ρ) : Bus (Machine kind ρ) where
  load a m :=
    match decoder kind rs address a with
    | some r => ((m.value logic r).setWidth 32, m.pass logic none)
    | none =>
      let found := rest.load a m.logic
      (found.1, { m with logic := found.2 })
  store a value m :=
    match decoder kind rs address a with
    | some r => m.store logic r (value.setWidth (kind r).width)
    | none => { m with logic := rest.store a value m.logic }
  fetch offset m :=
    (rest.fetch offset m.logic).map fun found => (found.1, { m with logic := found.2 })
  handed m := rest.handed m.logic
  mapped offset m inside := by
    rw [Option.isSome_map]
    exact rest.mapped offset m.logic inside

end Board

section Meaning

variable {kind} {ρ : Type*} (logic : Logic kind ρ) (uint32 : ℤ → Option Word)

def perform (s : Statement) (m : Machine kind ρ) : Except Exception PyValue × Machine kind ρ :=
  match s with
  | .get r =>
    match kind r with
    | .value k => (toPython k (m.value logic r).toNat, m.pass logic none)
    | .trigger _ => (.ok .sendTrigger, m)
  | .set r v =>
    match kind r with
    | .value k =>
      if k.toRegister.readonly then (.error .attributeError, m)
      else if (uint32 (k.encoded v)).isSome then
        (.ok .none, m.store logic r (BitVec.ofInt _ (k.encoded v)))
      else (.error .overflowError, m)
    | .trigger _ => (.error .attributeError, m)
  | .call r =>
    match kind r with
    | .value k =>
      ((toPython k (m.value logic r).toNat).bind fun _ => .error .typeError, m.pass logic none)
    | .trigger _ => (.ok .none, m.store logic r 0)

def performAll : List Statement → Machine kind ρ → List (Except Exception PyValue) × Machine kind ρ
  | [], m => ([], m)
  | s :: rest, m =>
    let first := perform logic uint32 s m
    let later := performAll rest first.2
    (first.1 :: later.1, later.2)

end Meaning

end Pypga.Core.RegisterFile
