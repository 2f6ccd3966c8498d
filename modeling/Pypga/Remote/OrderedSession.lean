/- GID: Pypga/Remote/OrderedSession
   generality: G
   digest: A session executes every request when it is sent and keeps the replies in one stream; the connection refines it. -/

import Pypga.Remote.Connection
import Pypga.Remote.RequestExecution

set_option autoImplicit false
set_option relaxedAutoImplicit false

namespace Pypga.Remote.OrderedSession

open Pypga.Foundation
open Pypga.Foundation.LittleEndian (Byte Word encode)
open Pypga.Remote.MonitorServer
open Pypga.Remote.SocketClient (Op Request Client)
open Pypga.Remote.RequestExecution
open Pypga.Remote.Connection

/-- The client against a server without delay: `stream` holds the bytes of all replies that
the client has not received yet. -/
structure Session (δ : Type*) where
  client : Client
  server : Server δ
  stream : List Byte

variable {δ : Type*} (bus : Bus δ)

namespace Session

def call (op : Op) (s : Session δ) : Option (Session δ) :=
  match s.client.call op with
  | some (client, _) =>
    match op.request with
    | .ok q =>
      let executed := execute bus q s.server
      some ⟨client, executed.1, s.stream ++ executed.2⟩
    | .error _ => some { s with client := client }
  | none => none

def receive (bytes : ℕ) (s : Session δ) : Option (Session δ) :=
  match s.client.wanted with
  | some most =>
    if 0 < bytes ∧ bytes ≤ most ∧ bytes ≤ s.stream.length then
      some { s with
        client := s.client.deliver (s.stream.take bytes) false
        stream := s.stream.drop bytes }
    else none
  | none => none

def endOfStream (late : Bool) (s : Session δ) : Option (Session δ) :=
  if s.client.wanted.isSome ∧ s.stream = [] ∧ s.server.phase = .failed then
    some { s with client := s.client.deliver [] late }
  else none

def timeout (s : Session δ) : Option (Session δ) :=
  if s.client.wanted.isSome then some { s with client := s.client.expire } else none

def step : Label → Session δ → Option (Session δ)
  | .start _, _ => none
  | .call op, s => s.call bus op
  | .serve, s => some s
  | .receive bytes, s => s.receive bytes
  | .endOfStream late, s => s.endOfStream late
  | .timeout, s => s.timeout

variable {bus}

theorem receive_enabled {s : Session δ} {bytes most : ℕ} (wanted : s.client.wanted = some most)
    (positive : 0 < bytes) (within : bytes ≤ most) (there : bytes ≤ s.stream.length) :
    s.receive bytes = some ⟨s.client.deliver (s.stream.take bytes) false, s.server,
      s.stream.drop bytes⟩ := by
  simp only [receive, wanted, positive, within, there, and_self, if_true]

private theorem call_server {op : Op} {s t : Session δ} (moved : s.call bus op = some t) :
    (t.server, t.stream) = match op.request with
      | .ok q => ((execute bus q s.server).1, s.stream ++ (execute bus q s.server).2)
      | .error _ => (s.server, s.stream) := by
  cases called : s.client.call op with
  | none => simp [call, called] at moved
  | some next =>
    cases request : op.request with
    | ok q =>
      simp only [call, called, request, Option.some.injEq] at moved
      exact moved ▸ rfl
    | error e =>
      simp only [call, called, request, Option.some.injEq] at moved
      exact moved ▸ rfl

theorem call_executes {op : Op} {q : Request} {s t : Session δ} (request : op.request = .ok q)
    (moved : s.call bus op = some t) :
    t.server = (execute bus q s.server).1 ∧ t.stream = s.stream ++ (execute bus q s.server).2 := by
  have left := call_server moved
  rw [request] at left
  exact Prod.mk.inj left

theorem call_refused {op : Op} {e : SocketClient.Error} {s t : Session δ}
    (request : op.request = .error e) (moved : s.call bus op = some t) : t.server = s.server := by
  have left := call_server moved
  rw [request] at left
  exact (Prod.mk.inj left).1

theorem receive_server {bytes : ℕ} {s t : Session δ} (moved : s.receive bytes = some t) :
    t.server = s.server := by
  cases wanted : s.client.wanted with
  | none => simp [receive, wanted] at moved
  | some most =>
    simp only [receive, wanted, Option.ite_none_right_eq_some, Option.some.injEq] at moved
    exact moved.2 ▸ rfl

end Session

/-- The requests that were sent and are not executed yet. -/
def pending (c : Config δ) : List Request := c.client.requests.drop c.server.log.length

def outstanding (c : Config δ) : List Byte := c.toClient ++ (executeAll bus (pending c) c.server).2

/-- The session a connection is in: the pending requests count as executed. -/
def session (c : Config δ) : Session δ :=
  ⟨c.client, (executeAll bus (pending c) c.server).1, outstanding bus c⟩

structure InStep (c : Config δ) : Prop where
  awaits : Awaits c.server c.toServer (pending c)
  logged : c.server.log.length ≤ c.client.requests.length
  opened : c.client.phase ≠ .unconnected

private theorem in_step_of_kept {c d : Config δ} (inStep : InStep c) (server : d.server = c.server)
    (stream : d.toServer = c.toServer) (requests : d.client.requests = c.client.requests)
    (opened : d.client.phase ≠ .unconnected) : InStep d := by
  refine ⟨?_, ?_, opened⟩
  · rw [pending, server, stream, requests]
    exact inStep.awaits
  · rw [server, requests]
    exact inStep.logged

theorem in_step_connected (buffer : ℕ → LittleEndian.Word) (device : δ) :
    InStep (Config.connected buffer device) :=
  ⟨.header [] rfl, le_rfl, fun h => nomatch h⟩

private theorem awaits_append {s : Server δ} {input : List Byte} {qs : List Request}
    (awaits : Awaits s input qs) (q : Request) : Awaits s (input ++ q.bytes) (qs ++ [q]) := by
  have last (rs : List Request) :
      rs.flatMap Request.bytes ++ q.bytes = (rs ++ [q]).flatMap Request.bytes := by
    rw [List.flatMap_append, List.flatMap_singleton]
  cases awaits with
  | header _ phase =>
    rw [last]
    exact .header (qs ++ [q]) phase
  | body addr values fits rs phase =>
    rw [List.append_assoc, last]
    exact .body addr values fits (rs ++ [q]) phase
  | failed _ _ phase => exact .failed (input ++ q.bytes) (qs ++ [q]) phase

private theorem awaits_ended {s : Server δ} {input : List Byte} {qs : List Request}
    (awaits : Awaits s input qs) (ended : s.phase = .closed ∨ s.phase = .failed) :
    s.phase = .failed := by
  cases awaits with
  | header _ phase => simp [phase] at ended
  | body addr values fits rs phase => simp [phase] at ended
  | failed _ _ phase => exact phase

theorem awaits_nil {s : Server δ} {input : List Byte} (awaits : Awaits s input [])
    (alive : s.phase ≠ .failed) : s.phase = .header ∧ input = [] := by
  cases awaits with
  | header _ phase => exact ⟨phase, rfl⟩
  | failed _ _ phase => exact absurd phase alive

structure Advanced (s : Server δ) (qs : List Request) (next : Served δ) : Prop where
  awaits : Awaits next.server next.unread (qs.drop (next.server.log.length - s.log.length))
  grown : s.log.length ≤ next.server.log.length ∧ next.server.log.length ≤ s.log.length + qs.length
  same : executeAll bus qs s =
    ((executeAll bus (qs.drop (next.server.log.length - s.log.length)) next.server).1,
      next.sent ++
        (executeAll bus (qs.drop (next.server.log.length - s.log.length)) next.server).2)
  kept : s.log <+: next.server.log
  moved : s.log.length < next.server.log.length ∨ next.server.phase = .failed ∨
    s.phase = .header ∧ next.server.phase ≠ .header

private theorem advanced_execute {s : Server δ} (alive : s.phase ≠ .failed) (q : Request)
    (qs : List Request) :
    Advanced bus s (q :: qs)
      ⟨(execute bus q s).1, qs.flatMap Request.bytes, (execute bus q s).2⟩ := by
  rcases execute_cases bus q alive with done | ⟨-, fault⟩
  · obtain ⟨payload, -, -, log⟩ := done.answer
    have grown : (execute bus q s).1.log.length = s.log.length + 1 := by
      rw [log, List.length_append, List.length_singleton]
    have one : (execute bus q s).1.log.length - s.log.length = 1 := by omega
    refine ⟨?_, ?_, ?_, ⟨_, log.symm⟩, .inl ?_⟩
    · rw [one]
      exact .header qs done.phase
    · show s.log.length ≤ (execute bus q s).1.log.length ∧
        (execute bus q s).1.log.length ≤ s.log.length + (qs.length + 1)
      constructor <;> omega
    · rw [one]
      rfl
    · show s.log.length < (execute bus q s).1.log.length
      omega
  · have none_done : (execute bus q s).1.log.length - s.log.length = 0 := by
      rw [fault.log]
      exact Nat.sub_self _
    refine ⟨.failed _ _ fault.phase, ?_, ?_, ?_, .inr (.inl fault.phase)⟩
    · constructor
      · rw [fault.log]
      · rw [fault.log]
        exact Nat.le_add_right _ _
    · rw [executeAll, execute_all_failed bus fault.phase, execute_all_failed bus fault.phase]
    · exact fault.log ▸ List.prefix_rfl

private theorem arrived_of_served {s : Server δ} {addr : Word} {values : List Word}
    {fits : values.length ≤ 65533} {rest : List Byte} {next : Served δ}
    (phase : s.phase = .body (Request.write addr values fits).header addr values.length)
    (served : serve bus s (encode values ++ rest) = some next) : values ≠ [] ∨ rest ≠ [] := by
  by_contra none_arrived
  push Not at none_arrived
  obtain ⟨rfl, rfl⟩ := none_arrived
  cases (serve_empty_body bus phase).symm.trans served

private theorem requests_of_bytes {qs : List Request} (some_byte : qs.flatMap Request.bytes ≠ []) :
    qs ≠ [] := by
  rintro rfl
  exact some_byte rfl

theorem serve_cases {s : Server δ} {input : List Byte} {qs : List Request} {next : Served δ}
    (awaits : Awaits s input qs) (served : serve bus s input = some next) :
    s.phase ≠ .failed ∧ ∃ q rest, qs = q :: rest ∧
      ((prompt q ∨ rest ≠ []) ∧
          next = ⟨(execute bus q s).1, rest.flatMap Request.bytes, (execute bus q s).2⟩ ∨
        ∃ addr values fits, q = .write addr values fits ∧ s.phase = .header ∧
          next = ⟨{ s with phase := .body q.header addr values.length },
            encode values ++ rest.flatMap Request.bytes, []⟩) := by
  cases awaits with
  | header _ phase =>
    refine ⟨by simp [phase], ?_⟩
    match qs with
    | [] => simp [serve, phase] at served
    | .read addr length fits :: rs =>
      rw [List.flatMap_cons, serve_read bus addr length fits phase] at served
      exact ⟨_, rs, rfl, .inl ⟨.inl trivial, (Option.some.inj served).symm⟩⟩
    | .ram offset length fits :: rs =>
      rw [List.flatMap_cons, serve_ram bus offset length fits phase] at served
      exact ⟨_, rs, rfl, .inl ⟨.inl trivial, (Option.some.inj served).symm⟩⟩
    | .write addr values fits :: rs =>
      rw [List.flatMap_cons, Request.bytes, List.append_assoc,
        serve_write_header bus addr values fits phase] at served
      exact ⟨_, rs, rfl, .inr ⟨addr, values, fits, rfl, phase, (Option.some.inj served).symm⟩⟩
  | body addr values fits rs phase =>
    have arrived := arrived_of_served bus phase served
    rw [serve_write_body bus addr values fits phase arrived] at served
    exact ⟨by simp [phase], _, rs, rfl, .inl ⟨arrived.imp id requests_of_bytes,
      (Option.some.inj served).symm⟩⟩
  | failed _ _ phase => simp [serve, phase] at served

theorem serve_advances {s : Server δ} {input : List Byte} {qs : List Request}
    {next : Served δ} (awaits : Awaits s input qs) (served : serve bus s input = some next) :
    Advanced bus s qs next := by
  obtain ⟨alive, q, rs, rfl, ⟨-, rfl⟩ | ⟨addr, values, fits, rfl, phase, rfl⟩⟩ :=
    serve_cases bus awaits served
  · exact advanced_execute bus alive q rs
  · refine ⟨?_, ⟨le_rfl, Nat.le_add_right _ _⟩, ?_, List.prefix_rfl, .inr (.inr ⟨phase, ?_⟩)⟩
    · simp only [Nat.sub_self, List.drop_zero]
      exact .body addr values fits rs rfl
    · simp only [Nat.sub_self, List.drop_zero, List.nil_append, executeAll]
      rw [execute_alive bus alive, execute_alive bus (by simp)]
      rfl
    · intro wrong
      cases wrong

/-- A server with something to do gets it done, if nothing it has to do is an empty write. -/
theorem serve_enabled {s : Server δ} {input : List Byte} {qs : List Request}
    (awaits : Awaits s input qs) (alive : s.phase ≠ .failed) (work : qs ≠ [])
    (all_prompt : ∀ q ∈ qs, prompt q) : ∃ next, serve bus s input = some next := by
  cases awaits with
  | header _ phase =>
    match qs with
    | [] => exact absurd rfl work
    | .read addr length fits :: rs => exact ⟨_, serve_read bus addr length fits phase _⟩
    | .ram offset length fits :: rs => exact ⟨_, serve_ram bus offset length fits phase _⟩
    | .write addr values fits :: rs =>
      rw [List.flatMap_cons, Request.bytes, List.append_assoc]
      exact ⟨_, serve_write_header bus addr values fits phase _⟩
  | body addr values fits rs phase =>
    have words : values ≠ [] := all_prompt _ List.mem_cons_self
    exact ⟨_, serve_write_body bus addr values fits phase (.inl words)⟩
  | failed _ _ phase => exact absurd phase alive

variable {bus}

private theorem session_append (c : Config δ) {d : Config δ} (q : Request)
    (server : d.server = c.server)
    (stream : d.toClient = c.toClient) (more : pending d = pending c ++ [q]) :
    session bus d = ⟨d.client, (execute bus q (session bus c).server).1,
      (session bus c).stream ++ (execute bus q (session bus c).server).2⟩ := by
  simp only [session, outstanding, server, stream, more, execute_all_append, executeAll,
    List.append_nil, List.append_assoc]

private theorem session_call {op : Op} {c d : Config δ} (inStep : InStep c)
    (moved : c.call op = some d) :
    InStep d ∧ (session bus c).call bus op = some (session bus d) := by
  obtain ⟨awaits, logged, opened⟩ := inStep
  obtain ⟨client, sent, called, rfl⟩ := Config.call_cases moved
  obtain ⟨-, ⟨q, request, rfl, rfl⟩ | ⟨e, request, rfl, rfl⟩⟩ := Client.call_cases called
  · have more : (c.client.requests ++ [q]).drop c.server.log.length = pending c ++ [q] :=
      List.drop_append_of_le_length logged
    refine ⟨⟨?_, ?_, ?_⟩, ?_⟩
    · show Awaits c.server (c.toServer ++ q.bytes)
        ((c.client.requests ++ [q]).drop c.server.log.length)
      rw [more]
      exact awaits_append awaits q
    · rw [List.length_append]
      exact Nat.le_add_right_of_le logged
    · exact Client.request_phase_connected q
    · rw [session_append (d := ⟨⟨q.phase, _, _⟩, _, _, _⟩) c q rfl rfl more]
      simp only [Session.call, session, called, request]
  · refine ⟨⟨?_, logged, ?_⟩, ?_⟩
    · rw [List.append_nil]
      exact awaits
    · exact opened
    · simp only [Session.call, session, called, request]
      rfl

theorem session_serve {c d : Config δ} (inStep : InStep c)
    (moved : c.serve bus = some d) : InStep d ∧ session bus c = session bus d := by
  obtain ⟨awaits, logged, opened⟩ := inStep
  obtain ⟨next, served, rfl⟩ := Config.serve_cases moved
  obtain ⟨after, ⟨more, most⟩, same, -, -⟩ := serve_advances bus awaits served
  have rest : (pending c).drop (next.server.log.length - c.server.log.length) =
      c.client.requests.drop next.server.log.length := by
    rw [pending, List.drop_drop]
    congr 1
    omega
  rw [rest] at after same
  refine ⟨⟨after, ?_, opened⟩, ?_⟩
  · rw [pending, List.length_drop] at most
    show next.server.log.length ≤ c.client.requests.length
    omega
  · simp only [session, outstanding, Session.mk.injEq, true_and]
    rw [same, pending]
    simp only [List.append_assoc, and_self]

private theorem session_receive {bytes : ℕ} {c d : Config δ} (inStep : InStep c)
    (moved : c.receive bytes = some d) :
    InStep d ∧ (session bus c).receive bytes = some (session bus d) := by
  obtain ⟨most, wanted, ⟨some_bytes, within, there⟩, rfl⟩ := Config.receive_cases moved
  have requests := Client.deliver_requests (c.toClient.take bytes) false c.client
  have long : bytes ≤ (session bus c).stream.length := by
    show bytes ≤ (c.toClient ++ _).length
    rw [List.length_append]
    exact Nat.le_add_right_of_le there
  refine ⟨in_step_of_kept inStep rfl rfl requests (Client.deliver_connected _ _ inStep.opened), ?_⟩
  rw [Session.receive_enabled wanted some_bytes within long]
  simp only [session, outstanding, pending, requests, List.take_append_of_le_length there,
    List.drop_append_of_le_length there]

private theorem session_end {late : Bool} {c d : Config δ} (inStep : InStep c)
    (moved : c.endOfStream late = some d) :
    InStep d ∧ (session bus c).endOfStream late = some (session bus d) := by
  obtain ⟨⟨waiting, empty, ended⟩, rfl⟩ := Config.end_of_stream_cases moved
  have requests := Client.deliver_requests [] late c.client
  have failed := awaits_ended inStep.awaits ended
  refine ⟨in_step_of_kept inStep rfl rfl requests (Client.deliver_connected _ _ inStep.opened), ?_⟩
  simp only [Session.endOfStream, session, outstanding, execute_all_failed bus failed, empty,
    waiting, failed, List.append_nil, and_self, if_true]

private theorem session_timeout {c d : Config δ} (inStep : InStep c)
    (moved : c.timeout = some d) :
    InStep d ∧ (session bus c).timeout = some (session bus d) := by
  obtain ⟨waiting, rfl⟩ := Config.timeout_cases moved
  have requests := Client.expire_requests c.client
  refine ⟨in_step_of_kept inStep rfl rfl requests (Client.expire_connected inStep.opened), ?_⟩
  simp only [Session.timeout, session, waiting, if_true, outstanding, pending, requests]

variable (bus) in
/-- A step of the server process is invisible in the session, every other step is the same
step of the session. -/
theorem session_step {l : Label} {c d : Config δ} (inStep : InStep c)
    (moved : c.step bus l = some d) :
    InStep d ∧ (session bus c).step bus l = some (session bus d) := by
  have opened := inStep.opened
  cases l with
  | start token => exact absurd (Config.start_cases moved).1 opened
  | call op => exact session_call inStep moved
  | serve =>
    obtain ⟨after, same⟩ := session_serve inStep moved
    exact ⟨after, congrArg some same⟩
  | receive bytes => exact session_receive inStep moved
  | endOfStream late => exact session_end inStep moved
  | timeout => exact session_timeout inStep moved

end Pypga.Remote.OrderedSession
