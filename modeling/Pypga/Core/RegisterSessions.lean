/- GID: Pypga/Core/RegisterSessions
   generality: G
   digest: Sessions with the attributes of a module tree do what their statements mean, over the connection. -/

import Pypga.Core.OffsetLaw
import Pypga.Core.RegisterFile

set_option autoImplicit false
set_option relaxedAutoImplicit false

namespace Pypga.Core.RegisterSessions

open Pypga.Foundation.FixedWidth
open Pypga.Foundation.LittleEndian (Word)
open Pypga.Remote.MonitorServer
open Pypga.Remote.SocketClient (Op Outcome)
open Pypga.Remote.Connection (Config Label)
open Pypga.Remote.DirectAccess
open Pypga.Remote.OrderlySession
open Pypga.Remote.ProtocolRefinement
open Pypga.Core.Registers (BoolRegister NumberRegister)
open Pypga.Core.WordEncoding (AnyRegister)
open Pypga.Core.OffsetLaw
open Pypga.Core.RegisterNames
open Pypga.Core.RemoteInterface
open Pypga.Core.RegisterFile

section Words

private theorem read_word {w : ℕ} (narrow : w ≤ 32) (v : BitVec w) :
    readValue [v.setWidth 32] = .int v.toNat := by
  have small : v.toNat < 2 ^ 32 := v.isLt.trans_le (Nat.pow_le_pow_right (by decide) narrow)
  rw [readValue, BitVec.toNat_setWidth, Nat.mod_eq_of_lt small]

private theorem written_word {w : ℕ} (narrow : w ≤ 32) (x : ℤ) :
    (BitVec.ofInt 32 x).setWidth w = BitVec.ofInt w x := by
  apply BitVec.eq_of_toNat_eq
  rw [BitVec.toNat_setWidth, BitVec.toNat_ofInt, BitVec.toNat_ofInt]
  exact trunc_trunc narrow x

end Words

section Statements

variable {kind : Register → Kind} {rs : List Register} (l : Listing rs)

def word (r : Register) : Word := BitVec.ofNat 32 (l.row r).address

/-- The file of a board with 32-bit addresses and words, and a name for each register. -/
structure Addressed (kind : Register → Kind) (l : Listing rs) : Prop where
  apart : NamesApart rs
  small : ∀ r ∈ rs, (l.row r).address < 2 ^ 32
  narrow : ∀ r ∈ rs, (kind r).scalar = true → (kind r).width ≤ 32

variable {l} (addressed : Addressed kind l)
include addressed

private theorem name_to_address {r : Register} (member : r ∈ rs) :
    (CsrMap.load l.rows).nameToAddress r.getFullName = some (l.row r).address := by
  have own := (own_addresses_iff l).mpr addressed.apart r member (β := Unit) .read
  obtain ⟨access, called, address, -⟩ := own
  cases found : (CsrMap.load l.rows).nameToAddress r.getFullName with
  | none =>
    rw [CsrMap.call, found] at called
    cases called
  | some a =>
    rw [CsrMap.call, found] at called
    cases called
    rw [← address]
    rfl

private theorem decoder_word {r : Register} (member : r ∈ rs) (scalar : (kind r).scalar = true) :
    decoder kind rs (word l) (word l r) = some r := by
  have listed : r ∈ rs.filter fun r => (kind r).scalar := List.mem_filter.mpr ⟨member, scalar⟩
  cases found : decoder kind rs (word l) (word l r) with
  | none =>
    have absent := List.find?_eq_none.mp found r listed
    simp at absent
  | some r' =>
    have same : word l r' = word l r := by simpa using List.find?_some found
    have member' := (List.mem_filter.mp (List.mem_of_find?_eq_some found)).1
    have addresses := congrArg BitVec.toNat same
    rw [word, word, BitVec.toNat_ofNat, BitVec.toNat_ofNat,
      Nat.mod_eq_of_lt (addressed.small r' member'),
      Nat.mod_eq_of_lt (addressed.small r member)] at addresses
    rw [l.apart r' member' r member addresses]

section Board

variable {ρ : Type*} (logic : Logic kind ρ) (rest : Bus ρ) {r : Register} (member : r ∈ rs)
  (scalar : (kind r).scalar = true)
include member scalar

private theorem access_read (m : Machine kind ρ) :
    access (csrBus rs (word l) logic rest) (.reads (word l r) 1) m =
      (.readValues (word l r) 1 [(m.value logic r).setWidth 32], m.pass logic none) := by
  have loaded : (csrBus rs (word l) logic rest).load (word l r) m =
      ((m.value logic r).setWidth 32, m.pass logic none) := by
    simp only [csrBus, decoder_word addressed member scalar]
  simp only [access, readValues, loaded, if_neg (Nat.lt_irrefl 1)]
  rfl

private theorem access_write (v : Word) (m : Machine kind ρ) :
    access (csrBus rs (word l) logic rest) (.writes (word l r) [v]) m =
      (.writeValues (word l r) [v], m.store logic r (v.setWidth (kind r).width)) := by
  have stored : (csrBus rs (word l) logic rest).store (word l r) v m =
      m.store logic r (v.setWidth (kind r).width) := by
    simp only [csrBus, decoder_word addressed member scalar]
  simp only [access, writeValues, List.length_singleton, if_neg (Nat.lt_irrefl 1)]
  exact congrArg (Prod.mk _) stored

end Board

section Steps

variable {uint32 : ℤ → Option Word}

variable {ρ : Type*} (logic : Logic kind ρ) (rest : Bus ρ) {s : Statement}
  (member : s.register ∈ rs) (scalar : (kind s.register).scalar = true) (m : Machine kind ρ)
include member scalar

variable (uint32) in
private theorem plan_read (planned : plan kind s = .calls .read) :
    ∃ op, clientOp kind uint32 (CsrMap.load l.rows) s = .ok (.inr op) ∧ Admissible op ∧
      access (csrBus rs (word l) logic rest) op m =
        (.readValues (word l s.register) 1 [(m.value logic s.register).setWidth 32],
          m.pass logic none) := by
  refine ⟨.reads (word l s.register) 1, ?_, ?_, access_read addressed logic rest member scalar m⟩
  · simp only [clientOp, planned, CsrMap.call, name_to_address addressed member, Option.map_some,
      remoteOp]
    rfl
  · show 1 ≤ 65535
    decide

private theorem plan_write (converts : Converts uint32) {x : ℤ}
    (planned : plan kind s = .calls (.write x)) :
    clientOp kind uint32 (CsrMap.load l.rows) s = .error .overflowError ∧ uint32 x = none ∨
    ∃ op v, clientOp kind uint32 (CsrMap.load l.rows) s = .ok (.inr op) ∧ uint32 x = some v ∧
      Admissible op ∧
      access (csrBus rs (word l) logic rest) op m =
        (.writeValues (word l s.register) [v], m.store logic s.register (BitVec.ofInt _ x)) := by
  have called : clientOp kind uint32 (CsrMap.load l.rows) s =
      match uint32 x with
      | some v => .ok (.inr (.writes (word l s.register) [v]))
      | none => .error .overflowError := by
    simp only [clientOp, planned, CsrMap.call, name_to_address addressed member, Option.map_some,
      remoteOp, Sum.elim_inl, List.mapM_cons, List.mapM_nil]
    cases uint32 x <;> rfl
  cases taken : uint32 x with
  | none => exact .inl ⟨by rw [called, taken], rfl⟩
  | some v =>
    refine .inr ⟨.writes (word l s.register) [v], v, by rw [called, taken], rfl, ?_, ?_⟩
    · exact ⟨List.cons_ne_nil _ _, Nat.one_le_of_lt (by decide : 0 < 65533)⟩
    · rw [access_write addressed logic rest member scalar, converts.other x v taken,
        written_word (addressed.narrow _ member scalar)]

private theorem statement_step (converts : Converts uint32) :
    match clientOp kind uint32 (CsrMap.load l.rows) s with
    | .error e => perform logic uint32 s m = (.error e, m)
    | .ok (.inl v) => perform logic uint32 s m = (.ok v, m)
    | .ok (.inr op) => Admissible op ∧
        perform logic uint32 s m =
          (result kind s (outcome (access (csrBus rs (word l) logic rest) op m).1),
            (access (csrBus rs (word l) logic rest) op m).2) := by
  have narrow := addressed.narrow s.register member scalar
  have word_read {k : AnyRegister} (shape : kind s.register = .value k) :
      result.read kind s.register [(m.value logic s.register).setWidth 32] =
        toPython k (m.value logic s.register).toNat := by
    rw [result.read, read_word narrow]
    simp only [shape]
  cases s with
  | get r =>
    cases shape : kind r with
    | value k =>
      obtain ⟨op, called, admissible, done⟩ := plan_read addressed uint32 logic rest
        member scalar m (by simp only [plan, shape])
      rw [called]
      refine ⟨admissible, ?_⟩
      rw [done]
      simp only [perform, shape]
      exact congrArg (·, m.pass logic none) (word_read shape).symm
    | trigger k =>
      simp only [clientOp, plan, perform, shape]
  | set r v =>
    cases shape : kind r with
    | value k =>
      have held : k.toRegister.ramOffset.isSome = false := by
        simp only [Statement.register, shape, Kind.scalar, Bool.decide_and, Bool.and_eq_true,
          decide_eq_true_eq] at scalar
        rw [scalar.2, Option.isSome_none]
      by_cases fixed : k.toRegister.readonly = true
      · simp only [clientOp, plan, perform, shape, fixed, true_or, if_true]
      · have planned : plan kind (.set r v) = .calls (.write (k.encoded v)) := by
          simp [plan, shape, fixed, held]
        rcases plan_write addressed logic rest member scalar m converts planned with
          ⟨called, refused⟩ | ⟨op, w, called, taken, admissible, done⟩
        · rw [called]
          simp [perform, shape, fixed, refused]
        · rw [called]
          refine ⟨admissible, ?_⟩
          rw [done]
          simp [perform, shape, fixed, taken, outcome, result, Statement.register]
    | trigger k =>
      simp only [clientOp, plan, perform, shape]
  | call r =>
    cases shape : kind r with
    | value k =>
      obtain ⟨op, called, admissible, done⟩ := plan_read addressed uint32 logic rest
        member scalar m (by simp only [plan, shape])
      rw [called]
      refine ⟨admissible, ?_⟩
      rw [done]
      have read := word_read shape
      simp only [perform, shape, outcome, result, Statement.register] at read ⊢
      rw [read]
      rfl
    | trigger k =>
      have planned : plan kind (.call r) = .calls (.write 0) := by simp only [plan, shape]
      rcases plan_write addressed logic rest member scalar m converts planned with
        ⟨-, refused⟩ | ⟨op, w, called, -, admissible, done⟩
      · rw [converts.fits 0 le_rfl (by decide)] at refused
        cases refused
      · rw [called]
        refine ⟨admissible, ?_⟩
        rw [done]
        simp [perform, shape, outcome, result, Statement.register]

end Steps

section Sessions

variable {ρ : Type*} (logic : Logic kind ρ) (rest : Bus ρ) {uint32 : ℤ → Option Word}
  (converts : Converts uint32)
include converts

theorem statements_run {statements : List Statement}
    (inside : ∀ s ∈ statements, s.register ∈ rs ∧ (kind s.register).scalar = true)
    (m : Machine kind ρ) :
    (∀ op ∈ clientOps kind uint32 (CsrMap.load l.rows) statements, Admissible op) ∧
    performAll logic uint32 statements m =
      (results kind uint32 (CsrMap.load l.rows) statements
        ((accesses (csrBus rs (word l) logic rest)
          (clientOps kind uint32 (CsrMap.load l.rows) statements) m).1.map outcome),
        (accesses (csrBus rs (word l) logic rest)
          (clientOps kind uint32 (CsrMap.load l.rows) statements) m).2) := by
  induction statements generalizing m with
  | nil => exact ⟨nofun, rfl⟩
  | cons s statements ih =>
    obtain ⟨member, scalar⟩ := inside s List.mem_cons_self
    have step := statement_step addressed logic rest member scalar m converts
    have later := ih fun other there => inside other (List.mem_cons_of_mem s there)
    cases called : clientOp kind uint32 (CsrMap.load l.rows) s with
    | error e =>
      simp only [called] at step
      obtain ⟨admissible, run⟩ := later m
      simp only [clientOps, results, called, performAll, step, run, and_true]
      exact admissible
    | ok done =>
      cases done with
      | inl v =>
        simp only [called] at step
        obtain ⟨admissible, run⟩ := later m
        simp only [clientOps, results, called, performAll, step, run, and_true]
        exact admissible
      | inr op =>
        simp only [called] at step
        obtain ⟨this, step⟩ := step
        obtain ⟨admissible, run⟩ := later (access (csrBus rs (word l) logic rest) op m).2
        simp only [clientOps, results, called, performAll, step, run, accesses, List.map_cons,
          and_true]
        intro other there
        rcases List.mem_cons.mp there with rfl | there
        · exact this
        · exact admissible other there

omit addressed converts in
private theorem answers_outcomes (log : List Execution) :
    (answers log).map Prod.snd = log.map outcome := by
  apply List.ext_getElem?
  intro i
  simp [answers, Function.comp_def]

/-- In a complete run the results and the registers are those that the statements mean. -/
theorem complete_session {statements : List Statement}
    (inside : ∀ s ∈ statements, s.register ∈ rs ∧ (kind s.register).scalar = true)
    {buffer : ℕ → Word} {m : Machine kind ρ} {labels : List Label} {c : Config (Machine kind ρ)}
    (complete : Complete (csrBus rs (word l) logic rest)
      (clientOps kind uint32 (CsrMap.load l.rows) statements) buffer m labels c) :
    results kind uint32 (CsrMap.load l.rows) statements (c.client.returned.map Prod.snd) =
      (performAll logic uint32 statements m).1 ∧
    c.server.device = (performAll logic uint32 statements m).2 := by
  obtain ⟨admissible, run⟩ := statements_run addressed logic rest converts inside m
  obtain ⟨logs, devices⟩ := execute_all_accesses (csrBus rs (word l) logic rest) admissible
    (s := (Config.connected buffer m).server) rfl
  rw [complete_returned complete, complete_executed complete, logs, devices, answers_outcomes, run]
  exact ⟨rfl, rfl⟩

/-- Every session with the attributes has a complete run, and in every one of them the results and
the registers are those that the statements mean. -/
theorem attributes_refine {statements : List Statement}
    (inside : ∀ s ∈ statements, s.register ∈ rs ∧ (kind s.register).scalar = true)
    (buffer : ℕ → Word) (m : Machine kind ρ) :
    (∃ labels c, Complete (csrBus rs (word l) logic rest)
      (clientOps kind uint32 (CsrMap.load l.rows) statements) buffer m labels c) ∧
    ∀ labels c, Complete (csrBus rs (word l) logic rest)
      (clientOps kind uint32 (CsrMap.load l.rows) statements) buffer m labels c →
      results kind uint32 (CsrMap.load l.rows) statements (c.client.returned.map Prod.snd) =
        (performAll logic uint32 statements m).1 ∧
      c.server.device = (performAll logic uint32 statements m).2 := by
  obtain ⟨admissible, -⟩ := statements_run addressed logic rest converts inside m
  refine ⟨complete_exists _ buffer m fun op there => answered_of_admissible (admissible op there), ?_⟩
  intro labels c complete
  exact complete_session addressed logic rest converts inside complete

end Sessions

end Statements

section Generator

def generator : ModuleClass :=
  .leaf "on" <| .branch "awg" (.leaf "amplitude" <| .leaf "software_trigger" .empty) .empty

def amplitude : Registers.FixedPointRegister := { width := 14, decimals := 13 }

def generatorKind (r : Register) : Kind :=
  if r.name = "on" then .value (.bool {})
  else if r.name = "amplitude" then .value (.fixedPoint amplitude)
  else .trigger {}

def awg (name : String) : Register := ⟨.sub "awg" (.top "top"), name⟩

def generatorFile : Listing (registers generator (.top "top")) := Listing.consecutive _

theorem generator_addressed : Addressed generatorKind generatorFile := by
  refine ⟨?_, by decide, by decide⟩
  unfold NamesApart
  decide

def counting : Logic generatorKind Word where
  status _ _ := 0
  next _ written n := if written = some (awg "software_trigger") then n + 1 else n

def generatorBus : Bus (Machine generatorKind Word) :=
  csrBus (registers generator (.top "top")) (word generatorFile) counting latch

def generatorSession : List Statement :=
  [.set (awg "amplitude") (1 / 2), .call (awg "software_trigger"), .set (awg "software_trigger") 1,
    .set ⟨.top "top", "on"⟩ 1, .call (awg "software_trigger"), .get (awg "amplitude")]

theorem generator_session_inside : ∀ s ∈ generatorSession,
    s.register ∈ registers generator (.top "top") ∧ (generatorKind s.register).scalar = true := by
  decide

theorem attributes_refine_generator :
    ∃ labels c, Complete generatorBus
      (clientOps generatorKind wrapping (CsrMap.load generatorFile.rows) generatorSession)
        (fun _ => 0) ⟨fun _ => 0, 0⟩ labels c ∧
      results generatorKind wrapping (CsrMap.load generatorFile.rows) generatorSession
          (c.client.returned.map Prod.snd) =
        [.ok .none, .ok .none, .error .attributeError, .ok .none, .ok .none,
          .ok (.float (4096 / 8191))] ∧
      c.server.device.logic = 2 := by
  obtain ⟨⟨labels, c, complete⟩, all⟩ := attributes_refine generator_addressed counting latch
    wrapping_converts generator_session_inside (fun _ => 0) ⟨fun _ => 0, 0⟩
  obtain ⟨same, device⟩ := all labels c complete
  refine ⟨labels, c, complete, ?_, ?_⟩
  · rw [same]
    decide +kernel
  · rw [device]
    decide +kernel

end Generator

section Contents

variable {kind : Register → Kind} {ρ : Type*} (logic : Logic kind ρ) (uint32 : ℤ → Option Word)

def lastAssigned (k : AnyRegister) (r : Register) : List Statement → Option ℚ
  | [] => none
  | .set r' v :: rest =>
    (lastAssigned k r rest).or
      (if r' = r ∧ (uint32 (k.encoded v)).isSome then some v else none)
  | _ :: rest => lastAssigned k r rest

theorem perform_all_append (statements more : List Statement) (m : Machine kind ρ) :
    performAll logic uint32 (statements ++ more) m =
      ((performAll logic uint32 statements m).1 ++
          (performAll logic uint32 more (performAll logic uint32 statements m).2).1,
        (performAll logic uint32 more (performAll logic uint32 statements m).2).2) := by
  induction statements generalizing m with
  | nil => rfl
  | cons s statements ih => simp only [List.cons_append, performAll, ih]

private theorem store_other {r r' : Register} (differ : r ≠ r') (v : BitVec (kind r').width)
    (m : Machine kind ρ) : (m.store logic r' v).storage r = m.storage r := by
  unfold Machine.store
  split
  · rfl
  · exact Function.update_of_ne differ _ _

private theorem store_same {r : Register} (writable : (kind r).readonly = false)
    (v : BitVec (kind r).width)
    (m : Machine kind ρ) : (m.store logic r v).storage r = v := by
  rw [Machine.store, if_neg (by simp [writable])]
  exact Function.update_self _ _ _

variable {r : Register} {k : AnyRegister} (shape : kind r = .value k)
  (writable : k.toRegister.readonly = false)
include shape writable

private theorem storage_step (s : Statement) (m : Machine kind ρ) :
    (perform logic uint32 s m).2.storage r =
      ((lastAssigned uint32 k r [s]).map fun v => BitVec.ofInt _ (k.encoded v)).getD (m.storage r) := by
  have held : (kind r).readonly = false := by rw [shape, Kind.readonly, writable]
  cases s with
  | get r' => cases other : kind r' <;> simp only [perform, other] <;> rfl
  | set r' v =>
    by_cases same : r' = r
    · subst same
      by_cases taken : (uint32 (k.encoded v)).isSome = true
      · simp [perform, shape, writable, taken, lastAssigned, store_same logic held]
      · simp [perform, shape, writable, taken, lastAssigned]
    · have none : lastAssigned uint32 k r [.set r' v] = none := by simp [lastAssigned, same]
      rw [none]
      have kept := store_other logic (Ne.symm same)
      cases other : kind r' with
      | value k' =>
        simp only [perform, other]
        split
        · rfl
        · split
          · exact kept _ m
          · rfl
      | trigger k' =>
        simp only [perform, other]
        rfl
  | call r' =>
    cases other : kind r' with
    | value k' =>
      simp only [perform, other]
      rfl
    | trigger k' =>
      have differ : r ≠ r' := by
        rintro rfl
        rw [shape] at other
        cases other
      simp only [perform, other]
      exact store_other logic differ _ m

theorem storage_last (statements : List Statement) (m : Machine kind ρ) :
    (performAll logic uint32 statements m).2.storage r =
      ((lastAssigned uint32 k r statements).map fun v => BitVec.ofInt _ (k.encoded v)).getD
        (m.storage r) := by
  induction statements generalizing m with
  | nil => rfl
  | cons s statements ih =>
    have split : lastAssigned uint32 k r (s :: statements) =
        (lastAssigned uint32 k r statements).or (lastAssigned uint32 k r [s]) := by
      cases s <;> simp [lastAssigned]
    rw [performAll, ih, split, storage_step logic uint32 shape writable]
    cases lastAssigned uint32 k r statements <;> rfl

end Contents

end Pypga.Core.RegisterSessions
