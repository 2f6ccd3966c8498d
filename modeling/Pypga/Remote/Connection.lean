/- GID: Pypga/Remote/Connection
   generality: G
   digest: One client and one server process joined by two byte streams, as a labelled step function. -/

import Pypga.Foundation.LabelledRun
import Pypga.Remote.MonitorServer
import Pypga.Remote.SocketClient

set_option autoImplicit false
set_option relaxedAutoImplicit false

namespace Pypga.Remote.Connection

open Pypga.Foundation.LittleEndian (Byte Word)
open Pypga.Remote.MonitorServer (Bus Server serve)
open Pypga.Remote.SocketClient

/-- What can happen next. Any call may be next, the server may be late with any response, and a
receive takes any piece of what has arrived, or gives up. -/
inductive Label
  | start (token : List Byte)
  | call (op : Op)
  | serve
  | receive (bytes : ℕ)
  | endOfStream (late : Bool)
  | timeout
  deriving DecidableEq

structure Config (δ : Type*) where
  client : Client
  server : Server δ
  toServer : List Byte
  toClient : List Byte

namespace Config

variable {δ : Type*} (bus : Bus δ)

/-- A server process that just accepted a connection. -/
def accepted (expected : List Byte) (buffer : ℕ → Word) (device : δ) : Config δ :=
  ⟨⟨.unconnected, [], []⟩, ⟨.token expected, buffer, device, []⟩, [], []⟩

def connected (buffer : ℕ → Word) (device : δ) : Config δ :=
  ⟨Client.connected, ⟨.header, buffer, device, []⟩, [], []⟩

def start (token : List Byte) (c : Config δ) : Option (Config δ) :=
  match c.client.phase with
  | .unconnected =>
    some { c with
      client := { c.client with phase := .handshake [] false }
      toServer := c.toServer ++ token }
  | _ => none

def call (op : Op) (c : Config δ) : Option (Config δ) :=
  match c.client.call op with
  | some (client, request) =>
    some { c with client := client, toServer := c.toServer ++ request }
  | none => none

def serve (c : Config δ) : Option (Config δ) :=
  match MonitorServer.serve bus c.server c.toServer with
  | some next =>
    some { c with
      server := next.server, toServer := next.unread, toClient := c.toClient ++ next.sent }
  | none => none

def receive (bytes : ℕ) (c : Config δ) : Option (Config δ) :=
  match c.client.wanted with
  | some most =>
    if 0 < bytes ∧ bytes ≤ most ∧ bytes ≤ c.toClient.length then
      some { c with
        client := c.client.deliver (c.toClient.take bytes) false
        toClient := c.toClient.drop bytes }
    else none
  | none => none

def endOfStream (late : Bool) (c : Config δ) : Option (Config δ) :=
  if c.client.wanted.isSome ∧ c.toClient = [] ∧
      (c.server.phase = .closed ∨ c.server.phase = .failed) then
    some { c with client := c.client.deliver [] late }
  else none

def timeout (c : Config δ) : Option (Config δ) :=
  if c.client.wanted.isSome then some { c with client := c.client.expire } else none

def step : Label → Config δ → Option (Config δ)
  | .start token, c => c.start token
  | .call op, c => c.call op
  | .serve, c => c.serve bus
  | .receive bytes, c => c.receive bytes
  | .endOfStream late, c => c.endOfStream late
  | .timeout, c => c.timeout

theorem receive_enabled {c : Config δ} {bytes most : ℕ} (wanted : c.client.wanted = some most)
    (positive : 0 < bytes) (within : bytes ≤ most) (there : bytes ≤ c.toClient.length) :
    c.receive bytes = some ⟨c.client.deliver (c.toClient.take bytes) false, c.server, c.toServer,
      c.toClient.drop bytes⟩ := by
  simp only [receive, wanted, positive, within, there, and_self, if_true]

section Cases

variable {bus} {c d : Config δ}

theorem start_cases {token : List Byte} (moved : c.start token = some d) :
    c.client.phase = .unconnected ∧ d =
      ⟨{ c.client with phase := .handshake [] false }, c.server, c.toServer ++ token, c.toClient⟩ := by
  unfold start at moved
  split at moved
  · rename_i fresh
    exact ⟨fresh, (Option.some.inj moved).symm⟩
  · cases moved

theorem call_cases {op : Op} (moved : c.call op = some d) :
    ∃ client request, c.client.call op = some (client, request) ∧
      d = ⟨client, c.server, c.toServer ++ request, c.toClient⟩ := by
  unfold call at moved
  split at moved
  · rename_i client request called
    exact ⟨client, request, called, (Option.some.inj moved).symm⟩
  · cases moved

theorem serve_cases (moved : c.serve bus = some d) :
    ∃ next, MonitorServer.serve bus c.server c.toServer = some next ∧
      d = ⟨c.client, next.server, next.unread, c.toClient ++ next.sent⟩ := by
  unfold serve at moved
  split at moved
  · rename_i next served
    exact ⟨next, served, (Option.some.inj moved).symm⟩
  · cases moved

theorem receive_cases {bytes : ℕ} (moved : c.receive bytes = some d) :
    ∃ most, c.client.wanted = some most ∧
      (0 < bytes ∧ bytes ≤ most ∧ bytes ≤ c.toClient.length) ∧
      d = ⟨c.client.deliver (c.toClient.take bytes) false, c.server, c.toServer,
        c.toClient.drop bytes⟩ := by
  unfold receive at moved
  split at moved
  · rename_i most wanted
    rw [Option.ite_none_right_eq_some, Option.some.injEq] at moved
    exact ⟨most, wanted, moved.1, moved.2.symm⟩
  · cases moved

theorem end_of_stream_cases {late : Bool} (moved : c.endOfStream late = some d) :
    (c.client.wanted.isSome = true ∧ c.toClient = [] ∧
      (c.server.phase = .closed ∨ c.server.phase = .failed)) ∧
      d = ⟨c.client.deliver [] late, c.server, c.toServer, c.toClient⟩ := by
  rw [endOfStream, Option.ite_none_right_eq_some, Option.some.injEq] at moved
  exact ⟨moved.1, moved.2.symm⟩

theorem timeout_cases (moved : c.timeout = some d) :
    c.client.wanted.isSome = true ∧ d = ⟨c.client.expire, c.server, c.toServer, c.toClient⟩ := by
  rw [timeout, Option.ite_none_right_eq_some, Option.some.injEq] at moved
  exact ⟨moved.1, moved.2.symm⟩

end Cases

end Config

end Pypga.Remote.Connection
