/- GID: Pypga/Core/RemoteInterface
   generality: G
   digest: The interface of the registers to a board over the network, call by call. -/

import Pypga.Remote.CompleteRuns

set_option autoImplicit false
set_option relaxedAutoImplicit false

namespace Pypga.Core.RemoteInterface

open Pypga.Foundation.LabelledRun
open Pypga.Foundation.LittleEndian (Word decode)
open Pypga.Remote.MonitorServer
open Pypga.Remote.SocketClient (Op Request Outcome)
open Pypga.Remote.RequestExecution
open Pypga.Remote.DirectAccess
open Pypga.Remote.Connection
open Pypga.Remote.OrderedSession
open Pypga.Remote.OrderlySession
open Pypga.Remote.ProtocolRefinement
open Pypga.Remote.CompleteRuns

/-- `Union[int, List[int]]`. -/
inductive Value
  | int (v : ℕ)
  | list (vs : List ℕ)
  deriving DecidableEq

/-- The values are converted to `uint32`. -/
def writeArray (address : Word) (value : List ℕ) : Op :=
  .writes address (value.map (BitVec.ofNat 32))

def readArray (address : Word) (length : ℕ) : Op := .reads address length

/-- What `read_from_address` makes of the words that were read. -/
def readValue : List Word → Value
  | [word] => .int word.toNat
  | words => .list (words.map BitVec.toNat)

theorem read_value_list {words : List Word} (many : 1 < words.length) :
    readValue words = .list (words.map BitVec.toNat) := by
  match words with
  | [] => rfl
  | [word] => simp at many
  | _ :: _ :: _ => rfl

variable {δ : Type*}

/-- The calls `ops`, one after the other, on a fresh connection: all of them have ended, without
timeouts and with whole acknowledgements. -/
structure Complete (bus : Bus δ) (ops : List Op) (buffer : ℕ → Word) (device : δ)
    (labels : List Label) (c : Config δ) : Prop where
  path : run (Config.step bus) labels (Config.connected buffer device) = some c
  called : calls labels = ops
  undisturbed : Along (Config.step bus) (fun l c => Undisturbed l c.client) labels
    (Config.connected buffer device)
  idle : c.client.phase = .idle

variable {bus : Bus δ} {buffer : ℕ → Word} {device : δ}

variable (bus buffer device) in
theorem complete_exists {ops : List Op} (answered : ∀ op ∈ ops, Answered op) :
    ∃ labels c, Complete bus ops buffer device labels c := by
  obtain ⟨labels, c, path, called, undisturbed, idle⟩ := complete_run_exists bus answered
    ⟨in_step_connected buffer device, orderly_connected buffer device⟩
    (fun _ there => absurd there List.not_mem_nil) rfl
  exact ⟨labels, c, path, called, undisturbed, idle⟩

theorem complete_returned {ops : List Op} {labels : List Label} {c : Config δ}
    (complete : Complete bus ops buffer device labels c) :
    c.client.returned = answers (executeAll bus (requests ops)
      (Config.connected buffer device).server).1.log := by
  have returned := complete_run_returned complete.path complete.undisturbed complete.idle
  rw [complete.called] at returned
  exact returned

theorem complete_executed {ops : List Op} {labels : List Label} {c : Config δ}
    (complete : Complete bus ops buffer device labels c) :
    c.server = (executeAll bus (requests ops) (Config.connected buffer device).server).1 := by
  have executed := complete_run_executed complete.path complete.undisturbed complete.idle
  rw [complete.called] at executed
  exact executed

theorem complete_prompt {ops : List Op} {labels : List Label} {c : Config δ}
    (complete : Complete bus ops buffer device labels c) : ∀ q ∈ requests ops, prompt q := by
  have all_prompt := complete_run_prompt complete.path complete.undisturbed complete.idle
  rw [complete.called] at all_prompt
  exact all_prompt

private theorem calls_carried {labels : List Label} {c d : Config δ}
    (along : Along (Config.step bus) (fun l c => Undisturbed l c.client) labels c)
    (path : run (Config.step bus) labels c = some d) : ∀ op ∈ calls labels, Carried op := by
  induction labels generalizing c with
  | nil => exact fun op member => absurd member List.not_mem_nil
  | cons l labels ih =>
    obtain ⟨m, first, later⟩ := run_cons.mp path
    have rest := ih (along.2 m first) later
    cases l with
    | call op =>
      intro other member
      rcases List.mem_cons.mp member with rfl | after
      · exact along.1
      · exact rest other after
    | _ => exact rest

def answer (bus : Bus δ) (q : Request) (buffer : ℕ → Word) (device : δ) : List Outcome :=
  (execute bus q (Config.connected buffer device).server).1.log.map outcome

private theorem answers_singleton {log : List Execution} {o : Outcome} :
    answers log = [(0, o)] ↔ log.map outcome = [o] := by
  match log with
  | [] => simp [answers]
  | [e] => simp [answers]
  | _ :: _ :: _ => simp [answers]

def Succeeds (bus : Bus δ) (op : Op) (buffer : ℕ → Word) (device : δ) (o : Outcome) : Prop :=
  (∃ labels c, Complete bus [op] buffer device labels c) ∧
    ∀ labels c, Complete bus [op] buffer device labels c → c.client.returned = [(0, o)]

private theorem succeeds_iff {op : Op} {o : Outcome}
    (all_prompt : ∀ q, op.request = .ok q → prompt q) :
    Succeeds bus op buffer device o ↔
      ∃ q, op.request = .ok q ∧ mappedArea q ∧ answer bus q buffer device = [o] := by
  constructor
  · rintro ⟨⟨labels, c, complete⟩, all⟩
    have carried := calls_carried complete.undisturbed complete.path
    rw [complete.called] at carried
    obtain ⟨q, request, mapped⟩ := carried op List.mem_cons_self
    refine ⟨q, request, mapped, ?_⟩
    have returned := complete_returned complete
    rw [all labels c complete, requests_cons_ok request] at returned
    exact answers_singleton.mp returned.symm
  · rintro ⟨q, request, mapped, answered⟩
    have once : ∀ other ∈ [op], Answered other := by
      intro other member
      obtain rfl := List.mem_singleton.mp member
      exact ⟨q, request, mapped, all_prompt q request⟩
    refine ⟨complete_exists bus buffer device once, ?_⟩
    intro labels c complete
    rw [complete_returned complete, requests_cons_ok request]
    exact answers_singleton.mpr answered

private theorem answered_read {address : Word} {n : ℕ} {fits : n ≤ 65535} :
    answer bus (.read address n fits) buffer device =
      [.words (entries (readValues bus address n (buffer, device)).1 n)] := by
  rw [answer, execute_alive bus (by intro failed; cases failed)]
  rfl

theorem succeeds_reads_iff {address : Word} {n : ℕ} {o : Outcome} :
    Succeeds bus (.reads address n) buffer device o ↔
      o = .words (entries (readValues bus address (min n 65535) (buffer, device)).1 (min n 65535)) := by
  have never_waits : ∀ q, (Op.reads address n).request = .ok q → prompt q := by
    intro q request
    cases request
    trivial
  rw [succeeds_iff never_waits]
  constructor
  · rintro ⟨q, request, -, answered⟩
    cases request
    rw [answered_read] at answered
    exact (List.singleton_inj.mp answered).symm
  · rintro rfl
    exact ⟨_, rfl, trivial, answered_read⟩

private theorem answered_ram {offset : Word} {n : ℕ} {short : n < 2 ^ 23}
    (inside : mappedArea (.ram offset n short)) :
    answer bus (.ram offset n short) buffer device =
      [.words (decode (ramCopy bus (offset &&& ramMask).toNat (4 * n) device).1)] := by
  have complete := ram_copy_length bus inside device
  have whole : ∀ s : Server δ, s.device = device → s.log = [] →
      (perform bus (.ram offset n short) s).1.log =
        [.ramCopy (offset &&& ramMask) n
          (decode (ramCopy bus (offset &&& ramMask).toNat (4 * n) device).1)] := by
    rintro s rfl fresh
    rw [perform, Server.copy, if_pos complete, fresh]
    rfl
  rw [answer, execute_alive bus (by intro failed; cases failed), whole _ rfl rfl]
  rfl

theorem succeeds_read_from_ram_iff {offset : Word} {n : ℕ} {o : Outcome} :
    Succeeds bus (.readFromRam offset n) buffer device o ↔
      n < 2 ^ 23 ∧ offset.toNat % ramSize + 4 * n ≤ ramSize ∧
        o = .words (decode (ramCopy bus (offset &&& ramMask).toNat (4 * n) device).1) := by
  have never_waits : ∀ q, (Op.readFromRam offset n).request = .ok q → prompt q := by
    intro q request
    simp only [Op.request] at request
    split at request
    · cases request
      trivial
    · cases request
  rw [succeeds_iff never_waits, ← masked_offset]
  by_cases short : n < 2 ^ 23
  · have request : (Op.readFromRam offset n).request = .ok (.ram offset n short) := dif_pos short
    rw [request]
    constructor
    · rintro ⟨q, is, inside, answered⟩
      cases is
      rw [answered_ram inside] at answered
      exact ⟨short, inside, (List.singleton_inj.mp answered).symm⟩
    · rintro ⟨-, inside, rfl⟩
      exact ⟨_, rfl, inside, answered_ram inside⟩
  · have request : (Op.readFromRam offset n).request = .error .length := dif_neg short
    rw [request]
    constructor
    · rintro ⟨q, is, -⟩
      cases is
    · rintro ⟨fits, -⟩
      exact absurd fits short

end Pypga.Core.RemoteInterface
