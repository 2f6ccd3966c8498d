/- GID: Pypga/Remote/CompleteRuns
   generality: G
   digest: Undisturbed calls end, and return what the service loop does with their requests one after the other. -/

import Pypga.Remote.ProtocolRefinement

set_option autoImplicit false
set_option relaxedAutoImplicit false

namespace Pypga.Remote.CompleteRuns

open Pypga.Foundation.LabelledRun
open Pypga.Foundation.LittleEndian (Word)
open Pypga.Remote.MonitorServer (Bus)
open Pypga.Remote.SocketClient (Op Client)
open Pypga.Remote.RequestExecution
open Pypga.Remote.DirectAccess
open Pypga.Remote.Connection
open Pypga.Remote.OrderedSession
open Pypga.Remote.OrderlySession
open Pypga.Remote.ProtocolRefinement

variable {δ : Type*} {bus : Bus δ}

private theorem calls_cons_call (op : Op) (labels : List Label) :
    calls (.call op :: labels) = op :: calls labels := rfl

private theorem calls_inside {labels : List Label} {c d : Config δ}
    (inside : Along (Config.step bus) Inside labels c)
    (path : run (Config.step bus) labels c = some d) : calls labels = [] := by
  induction labels generalizing c with
  | nil => rfl
  | cons l labels ih =>
    obtain ⟨m, first, later⟩ := run_cons.mp path
    have none := ih (inside.2 m first) later
    cases l with
    | serve => exact none
    | receive bytes => exact none
    | _ => exact inside.1.elim

section Idle

variable {buffer : ℕ → Word} {device : δ} {labels : List Label} {c : Config δ}
variable (path : run (Config.step bus) labels (Config.connected buffer device) = some c)
variable (along : Along (Config.step bus) (fun l c => Undisturbed l c.client) labels
  (Config.connected buffer device))
variable (idle : c.client.phase = .idle)
include path along idle

theorem complete_run_returned :
    c.client.returned = answers (executeAll bus (requests (calls labels))
      (Config.connected buffer device).server).1.log := by
  obtain ⟨executed, -, -, -, returned⟩ := run_settled path along idle
  rw [← executed]
  exact returned

theorem complete_run_executed :
    c.server = (executeAll bus (requests (calls labels))
      (Config.connected buffer device).server).1 :=
  (run_settled path along idle).1

theorem complete_run_prompt : ∀ q ∈ requests (calls labels), prompt q := by
  have start : InStep (Config.connected buffer device) ∧
      Orderly (session bus (Config.connected buffer device)) :=
    ⟨in_step_connected buffer device, orderly_connected buffer device⟩
  obtain ⟨before, inTurn⟩ := run_invariant
    (fun c => (InStep c ∧ Orderly (session bus c)) ∧ InTurn c)
    (fun _ _ _ here undisturbed moved => ⟨connection_step here.1 undisturbed moved,
      in_turn_step here.1 here.2 moved⟩)
    ⟨start, in_turn_unsent rfl⟩ along path
  have all_prompt := all_prompt_of_idle before inTurn idle
  rw [AllPrompt, requests_run path] at all_prompt
  exact all_prompt

end Idle

variable (bus) in
private theorem call_enabled (op : Op) {c : Config δ} (idle : c.client.phase = .idle) :
    ∃ d, c.step bus (.call op) = some d := by
  simp only [Config.step, Config.call, Client.call, idle]
  cases op.request <;> exact ⟨_, rfl⟩

variable (bus) in
/-- Every sequence of such calls has a schedule on which all of them end. -/
theorem complete_run_exists {ops : List Op} (answered : ∀ op ∈ ops, Answered op) {c : Config δ}
    (before : InStep c ∧ Orderly (session bus c)) (all_prompt : AllPrompt c)
    (idle : c.client.phase = .idle) :
    ∃ labels d, run (Config.step bus) labels c = some d ∧ calls labels = ops ∧
      Along (Config.step bus) (fun l c => Undisturbed l c.client) labels c ∧
      d.client.phase = .idle := by
  induction ops generalizing c with
  | nil => exact ⟨[], c, rfl, rfl, trivial, idle⟩
  | cons op ops ih =>
    obtain ⟨m, called⟩ := call_enabled bus op idle
    have first := answered op List.mem_cons_self
    have allowed : Undisturbed (.call op) c.client := carried_of_answered first
    have during := connection_step before allowed called
    have single : ∀ other ∈ calls [.call op], Answered other := fun other member =>
      List.mem_singleton.mp member ▸ first
    have alone : run (Config.step bus) [.call op] c = some m := run_cons.mpr ⟨m, called, rfl⟩
    have prompt_during := all_prompt_run all_prompt alone (prompt_of_answered single)
    obtain ⟨more, n, inside, path, ended⟩ := inside_ends during prompt_during
    have undisturbed : Along (Config.step bus) (fun l c => Undisturbed l c.client) more m :=
      along_mono (fun l _ s chosen => undisturbed_inside chosen.1 chosen.2) inside
    have none : calls more = [] := calls_inside (along_mono (fun _ _ _ chosen => chosen.1) inside) path
    have prompt_after := all_prompt_run prompt_during path fun q member => by
      rw [none] at member
      exact absurd member List.not_mem_nil
    obtain ⟨last, d, rest, later, quiet, done⟩ :=
      ih (fun other member => answered other (List.mem_cons_of_mem op member))
        (connection_run during undisturbed path) prompt_after ended
    refine ⟨.call op :: (more ++ last), d, ?_, ?_, ⟨allowed, fun t moved => ?_⟩, done⟩
    · exact run_cons.mpr ⟨m, called, run_append.mpr ⟨n, path, rest⟩⟩
    · rw [calls_cons_call, calls_append, none, later]
      rfl
    · obtain rfl : m = t := Option.some.inj (called.symm.trans moved)
      refine along_append.mpr ⟨undisturbed, fun k other => ?_⟩
      obtain rfl : n = k := Option.some.inj (path.symm.trans other)
      exact quiet

end Pypga.Remote.CompleteRuns
