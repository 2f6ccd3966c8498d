/- GID: Pypga/Remote/ExecutedRequests
   generality: G
   digest: At any moment of any run the server has executed the first requests, but never an empty write at the end. -/

import Pypga.Remote.OrderedSession

set_option autoImplicit false
set_option relaxedAutoImplicit false

namespace Pypga.Remote.ExecutedRequests

open Pypga.Foundation.LabelledRun
open Pypga.Foundation.LittleEndian (Word)
open Pypga.Remote.MonitorServer
open Pypga.Remote.SocketClient (Client Request)
open Pypga.Remote.RequestExecution
open Pypga.Remote.Connection
open Pypga.Remote.OrderedSession

variable {δ : Type*}

/-- The last request is not executed while it waits for a byte behind it. -/
def Waiting (c : Config δ) : Prop := ∀ sent q, c.client.requests = sent ++ [q] →
  prompt q ∨ c.server.log.length ≤ sent.length

/-- The server is where the first requests have led it, as many as its log has entries, or it has
ended at a RAM read behind the mapped area. -/
def Executing (bus : Bus δ) (start : Server δ) (c : Config δ) : Prop :=
  c.server.phase ≠ .failed ∧ { c.server with phase := .header } =
      (executeAll bus (c.client.requests.take c.server.log.length) start).1 ∨
    c.server.phase = .failed ∧ ∃ q ∈ c.client.requests, ¬ mappedArea q

variable {bus : Bus δ} {start : Server δ}

private theorem waiting_of_kept {c d : Config δ} (waiting : Waiting c)
    (requests : d.client.requests = c.client.requests)
    (log : d.server.log.length = c.server.log.length) : Waiting d := by
  intro sent q is
  rw [requests] at is
  rw [log]
  exact waiting sent q is

private theorem executing_of_kept {c d : Config δ} (executing : Executing bus start c)
    (requests : d.client.requests = c.client.requests) (server : d.server = c.server) :
    Executing bus start d := by
  rw [Executing, requests, server]
  exact executing

private theorem waiting_serve {c d : Config δ} (inStep : InStep c) (waiting : Waiting c)
    (moved : c.serve bus = some d) : Waiting d := by
  obtain ⟨next, served, rfl⟩ := Config.serve_cases moved
  obtain ⟨alive, p, rest, todo, executes⟩ := serve_cases bus inStep.awaits served
  rcases executes with ⟨arrived, rfl⟩ | ⟨addr, values, fits, -, -, rfl⟩
  · intro sent q is
    refine (waiting sent q is).elim .inl fun few => ?_
    have more := execute_log_le bus p alive
    rcases few.lt_or_eq with fewer | exactly
    · exact .inr (more.trans fewer)
    · -- the request that is executed is the last one, so it did not have to wait
      rw [pending, is, exactly, List.drop_left] at todo
      obtain ⟨rfl, rfl⟩ := List.cons.inj todo
      exact .inl (arrived.resolve_right fun wrong => wrong rfl)
  · exact waiting_of_kept waiting rfl rfl

private theorem execute_phase (q : Request) {s : Server δ} (alive : s.phase ≠ .failed) :
    execute bus q { s with phase := .header } = execute bus q s := by
  rw [execute_alive bus alive, execute_alive bus (by simp)]
  cases q with
  | read addr length fits => rfl
  | ram offset length fits => rfl
  | write addr values fits => rfl

private theorem executing_serve {c d : Config δ} (inStep : InStep c)
    (executing : Executing bus start c) (moved : c.serve bus = some d) : Executing bus start d := by
  obtain ⟨next, served, rfl⟩ := Config.serve_cases moved
  obtain ⟨alive, p, rest, todo, executes⟩ := serve_cases bus inStep.awaits served
  rw [pending] at todo
  rcases executing with ⟨-, same⟩ | ⟨ended, -⟩
  · rcases executes with ⟨-, rfl⟩ | ⟨addr, values, fits, -, -, rfl⟩
    · rcases execute_cases bus p alive with done | ⟨outside, fault⟩
      · left
        obtain ⟨payload, -, -, log⟩ := done.answer
        have grown : (execute bus p c.server).1.log.length = c.server.log.length + 1 := by
          rw [log, List.length_append, List.length_singleton]
        have first : c.client.requests.take (c.server.log.length + 1) =
            c.client.requests.take c.server.log.length ++ [p] := by
          have inside : c.client.requests[c.server.log.length]? = some p := by
            rw [← List.head?_drop, todo]
            rfl
          rw [List.take_add_one, inside]
          rfl
        refine ⟨by rw [done.phase]; simp, ?_⟩
        show { (execute bus p c.server).1 with phase := .header } =
          (executeAll bus (c.client.requests.take (execute bus p c.server).1.log.length) start).1
        rw [grown, first, execute_all_append, ← same, executeAll, executeAll, execute_phase p alive,
          ← done.phase]
      · have sent : p ∈ c.client.requests.drop c.server.log.length := todo ▸ List.mem_cons_self
        exact .inr ⟨fault.phase, p, List.mem_of_mem_drop sent, outside⟩
    · exact .inl ⟨by simp, same⟩
  · exact absurd ended alive

theorem waiting_step {l : Label} {c d : Config δ} (inStep : InStep c) (waiting : Waiting c)
    (moved : c.step bus l = some d) : Waiting d := by
  cases l with
  | start token =>
    obtain ⟨-, rfl⟩ := Config.start_cases moved
    exact waiting_of_kept waiting rfl rfl
  | call op =>
    obtain ⟨client, sent, called, rfl⟩ := Config.call_cases moved
    obtain ⟨-, ⟨q, -, -, rfl⟩ | ⟨e, -, -, rfl⟩⟩ := Client.call_cases called
    · intro earlier p is
      obtain ⟨rfl, -⟩ := List.append_inj' is rfl
      exact .inr inStep.logged
    · exact waiting_of_kept waiting rfl rfl
  | serve => exact waiting_serve inStep waiting moved
  | receive bytes =>
    obtain ⟨most, -, -, rfl⟩ := Config.receive_cases moved
    exact waiting_of_kept waiting (Client.deliver_requests _ false c.client) rfl
  | endOfStream late =>
    obtain ⟨-, rfl⟩ := Config.end_of_stream_cases moved
    exact waiting_of_kept waiting (Client.deliver_requests [] late c.client) rfl
  | timeout =>
    obtain ⟨-, rfl⟩ := Config.timeout_cases moved
    exact waiting_of_kept waiting (Client.expire_requests c.client) rfl

private theorem executing_step {l : Label} {c d : Config δ} (inStep : InStep c)
    (executing : Executing bus start c) (moved : c.step bus l = some d) : Executing bus start d := by
  cases l with
  | start token =>
    obtain ⟨-, rfl⟩ := Config.start_cases moved
    exact executing_of_kept executing rfl rfl
  | call op =>
    obtain ⟨client, sent, called, rfl⟩ := Config.call_cases moved
    obtain ⟨-, ⟨q, -, -, rfl⟩ | ⟨e, -, -, rfl⟩⟩ := Client.call_cases called
    · rcases executing with ⟨alive, same⟩ | ⟨ended, p, there, outside⟩
      · refine .inl ⟨alive, ?_⟩
        show _ = (executeAll bus ((c.client.requests ++ [q]).take c.server.log.length) start).1
        rw [List.take_append_of_le_length inStep.logged]
        exact same
      · exact .inr ⟨ended, p, List.mem_append_left _ there, outside⟩
    · exact executing_of_kept executing rfl rfl
  | serve => exact executing_serve inStep executing moved
  | receive bytes =>
    obtain ⟨most, -, -, rfl⟩ := Config.receive_cases moved
    exact executing_of_kept executing (Client.deliver_requests _ false c.client) rfl
  | endOfStream late =>
    obtain ⟨-, rfl⟩ := Config.end_of_stream_cases moved
    exact executing_of_kept executing (Client.deliver_requests [] late c.client) rfl
  | timeout =>
    obtain ⟨-, rfl⟩ := Config.timeout_cases moved
    exact executing_of_kept executing (Client.expire_requests c.client) rfl

theorem waiting_unsent {c : Config δ} (none_sent : c.client.requests = []) : Waiting c := by
  intro sent q is
  rw [none_sent] at is
  exact absurd (congrArg List.length is) (by simp)

/-- Whatever the client calls and receives, and whenever it gives up, the server has executed the
first of the requests, and the last one only if that waits for nothing. -/
theorem executed_requests {buffer : ℕ → Word} {device : δ} {labels : List Label} {c : Config δ}
    (path : run (Config.step bus) labels (Config.connected buffer device) = some c) :
    Waiting c ∧ Executing bus (Config.connected buffer device).server c := by
  have along : Along (Config.step bus) (fun _ _ => True) labels (Config.connected buffer device) :=
    along_of_labels fun _ _ _ => trivial
  have fresh : Executing bus (Config.connected buffer device).server
      (Config.connected buffer device) := .inl ⟨by simp [Config.connected], rfl⟩
  exact (run_invariant
    (fun c => InStep c ∧ Waiting c ∧ Executing bus (Config.connected buffer device).server c)
    (fun _ _ _ here _ moved =>
      ⟨(session_step bus here.1 moved).1, waiting_step here.1 here.2.1 moved,
        executing_step here.1 here.2.2 moved⟩)
    ⟨in_step_connected buffer device, waiting_unsent rfl, fresh⟩ along path).2

end Pypga.Remote.ExecutedRequests
