/- GID: Pypga/Remote/Admission
   generality: G
   digest: A server admits the clients that present its token, and does nothing for the others. -/

import Pypga.Remote.Segmentation
import Pypga.Remote.ServerObject

set_option autoImplicit false
set_option relaxedAutoImplicit false

namespace Pypga.Remote.Admission

open Pypga.Foundation.LabelledRun
open Pypga.Foundation.LittleEndian (Byte Word low)
open Pypga.Remote.MonitorServer (Bus Server serve)
open Pypga.Remote.MonitorServer.Server (confirmation tokenBuffer)
open Pypga.Remote.SocketClient
open Pypga.Remote.Connection
open Pypga.Remote.Segmentation (Greeting Delivered greeting_step)
open Pypga.Remote.ServerObject (Token Drawn)

variable {δ : Type*} {bus : Bus δ}

section Wrong

variable {expected presented : List Byte} {buffer : ℕ → Word} {device : δ}

inductive Locked (expected presented : List Byte) (device : δ) (c : Config δ) : Prop
  | fresh (phase : c.client.phase = .unconnected) (server : c.server.phase = .token expected)
      (toServer : c.toServer = []) (toClient : c.toClient = [])
  | asked (again : Bool) (phase : c.client.phase = .handshake [] again)
      (server : c.server.phase = .token expected) (toServer : c.toServer = presented)
      (toClient : c.toClient = [])
  | answered (data : List Byte) (again : Bool) (phase : c.client.phase = .handshake data again)
      (server : c.server.phase = .failed) (stream : data ++ c.toClient = expected)
      (short : data.length < 32)
  | refused (error : Error) (phase : c.client.phase = .refused error)
      (server : (c.server.phase = .token expected ∧ c.toServer = presented) ∨ c.server.phase = .failed)

structure Untouched (device : δ) (c : Config δ) : Prop where
  requests : c.client.requests = []
  returned : c.client.returned = []
  log : c.server.log = []
  device : c.server.device = device

private theorem serve_wrong {s : Server δ} (phase : s.phase = .token expected)
    (long : presented.length = 32)
    (wrong : presented ≠ expected) :
    serve bus s presented =
      some ⟨{ s with phase := .failed, buffer := tokenBuffer presented s.buffer }, [], expected⟩ := by
  have enough : ¬ presented.length < 32 := by omega
  have all : presented.take 32 = presented := List.take_of_length_le long.le
  have nothing : presented.drop 32 = [] := List.drop_of_length_le long.le
  simp only [serve, phase, if_neg enough, all, nothing, Server.authenticate, if_neg wrong]

private theorem greeted_wrong (ones : expected ≠ confirmation) (c : Client) :
    ∃ error, (c.greeted expected).phase = .refused error ∧
      (c.greeted expected).requests = c.requests ∧ (c.greeted expected).returned = c.returned := by
  have other : expected ≠ List.replicate 32 (low '1'.toNat) := ones
  rw [Client.greeted, if_neg other]
  split
  · exact ⟨_, rfl, rfl, rfl⟩
  · exact ⟨_, rfl, rfl, rfl⟩

private theorem deliver_wrong {c : Client} {data stream : List Byte} {again : Bool} {bytes : ℕ}
    (phase : c.phase = .handshake data again) (rest : data ++ stream = expected)
    (long : expected.length = 32) (ones : expected ≠ confirmation) (positive : 0 < bytes)
    (there : bytes ≤ stream.length) :
    ((∃ again', (c.deliver (stream.take bytes) false).phase =
        .handshake (data ++ stream.take bytes) again' ∧ (data ++ stream.take bytes).length < 32) ∨
      ∃ error, (c.deliver (stream.take bytes) false).phase = .refused error) ∧
    (c.deliver (stream.take bytes) false).requests = c.requests ∧
    (c.deliver (stream.take bytes) false).returned = c.returned := by
  have size : (data ++ stream.take bytes).length = data.length + bytes := by
    rw [List.length_append, List.length_take, Nat.min_eq_left there]
  by_cases more : (data ++ stream.take bytes).length < 32
  · rw [Client.deliver_handshake_more phase more (Client.piece_ne_nil positive there)]
    exact ⟨.inl ⟨true, rfl, more⟩, rfl, rfl⟩
  · have total : data.length + stream.length = 32 := by
      rw [← List.length_append, rest, long]
    have whole : stream.take bytes = stream := List.take_of_length_le (by omega)
    rw [Client.deliver_handshake_last phase more, whole, rest]
    obtain ⟨error, refused, same, same'⟩ := greeted_wrong ones c
    exact ⟨.inr ⟨error, refused⟩, same, same'⟩

private theorem locked_step {l : Label} {c d : Config δ} (long : expected.length = 32)
    (long' : presented.length = 32) (wrong : presented ≠ expected) (ones : expected ≠ confirmation)
    (locked : Locked expected presented device c ∧ Untouched device c)
    (only : ∀ token, l = .start token → token = presented) (moved : c.step bus l = some d) :
    Locked expected presented device d ∧ Untouched device d := by
  obtain ⟨locked, untouched⟩ := locked
  obtain ⟨requests, returned, log, same⟩ := untouched
  cases l with
  | start token =>
    obtain rfl := only token rfl
    cases locked with
    | fresh phase server toServer toClient =>
      simp only [Config.step, Config.start, phase, Option.some.injEq] at moved
      subst moved
      refine ⟨.asked false rfl server ?_ toClient, requests, returned, log, same⟩
      show c.toServer ++ token = token
      rw [toServer, List.nil_append]
    | asked again phase => simp [Config.step, Config.start, phase] at moved
    | answered data again phase => simp [Config.step, Config.start, phase] at moved
    | refused error phase => simp [Config.step, Config.start, phase] at moved
  | call op =>
    have idle := (Client.call_cases (Config.call_cases moved).choose_spec.choose_spec.1).1
    cases locked with
    | fresh phase => rw [phase] at idle; cases idle
    | asked again phase => rw [phase] at idle; cases idle
    | answered data again phase => rw [phase] at idle; cases idle
    | refused error phase => rw [phase] at idle; cases idle
  | serve =>
    obtain ⟨next, served, rfl⟩ := Config.serve_cases moved
    cases locked with
    | fresh phase server toServer toClient =>
      simp [serve, server, toServer] at served
    | asked again phase server toServer toClient =>
      rw [toServer, serve_wrong server long' wrong] at served
      cases served
      refine ⟨.answered [] again phase rfl ?_ (by decide), requests, returned, log, same⟩
      show [] ++ (c.toClient ++ expected) = expected
      rw [toClient]
      rfl
    | answered data again phase server =>
      simp [serve, server] at served
    | refused error phase server =>
      rcases server with ⟨server, toServer⟩ | server
      · rw [toServer, serve_wrong server long' wrong] at served
        cases served
        exact ⟨.refused error phase (.inr rfl), requests, returned, log, same⟩
      · simp [serve, server] at served
  | receive bytes =>
    obtain ⟨most, wanted, ⟨positive, within, there⟩, rfl⟩ := Config.receive_cases moved
    cases locked with
    | fresh phase => simp [Client.wanted, phase] at wanted
    | asked again phase server toServer toClient =>
      rw [toClient] at there
      exact absurd there (Nat.not_le_of_lt positive)
    | answered data again phase server stream short =>
      simp only [Client.wanted, phase, Option.some.injEq] at wanted
      subst wanted
      obtain ⟨goes, same₁, same₂⟩ := deliver_wrong phase stream long ones positive there
      have frame : Untouched device
          ⟨c.client.deliver (c.toClient.take bytes) false, c.server, c.toServer, c.toClient.drop bytes⟩ :=
        ⟨same₁.trans requests, same₂.trans returned, log, same⟩
      rcases goes with ⟨again', next, less⟩ | ⟨error, next⟩
      · refine ⟨.answered _ again' next server ?_ less, frame⟩
        rw [List.append_assoc, List.take_append_drop, stream]
      · exact ⟨.refused error next (.inr server), frame⟩
    | refused error phase => simp [Client.wanted, phase] at wanted
  | endOfStream late =>
    obtain ⟨⟨wanted, drained, ended⟩, rfl⟩ := Config.end_of_stream_cases moved
    cases locked with
    | fresh phase => simp [Client.wanted, phase] at wanted
    | asked again phase server => simp [server] at ended
    | answered data again phase server stream short =>
      rw [drained, List.append_nil] at stream
      rw [stream, long] at short
      exact absurd short (Nat.lt_irrefl 32)
    | refused error phase => simp [Client.wanted, phase] at wanted
  | timeout =>
    obtain ⟨wanted, rfl⟩ := Config.timeout_cases moved
    cases locked with
    | fresh phase => simp [Client.wanted, phase] at wanted
    | asked again phase server toServer toClient =>
      have gone : c.client.expire = { c.client with phase := .refused .timeout } := by
        simp only [Client.expire, phase]
      rw [gone]
      exact ⟨.refused .timeout rfl (.inl ⟨server, toServer⟩), requests, returned, log, same⟩
    | answered data again phase server stream short =>
      have gone : c.client.expire = { c.client with phase := .refused .timeout } := by
        simp only [Client.expire, phase]
      rw [gone]
      exact ⟨.refused .timeout rfl (.inr server), requests, returned, log, same⟩
    | refused error phase => simp [Client.wanted, phase] at wanted

end Wrong

section Right

variable {token : List Byte} {buffer : ℕ → Word} {device : δ}

def InSession : Phase → Prop
  | .unconnected | .handshake _ _ | .refused _ => False
  | _ => True

private theorem request_in_session (q : Request) : InSession q.phase := by
  cases q <;> trivial

private theorem deliver_in_session {c : Client} (inside : InSession c.phase) (piece : List Byte)
    (late : Bool) : InSession (c.deliver piece late).phase := by
  unfold Client.deliver
  split
  · rename_i phase
    rw [phase] at inside
    exact inside.elim
  · dsimp only
    split
    · trivial
    · split
      · trivial
      · unfold Client.checked
        split <;> trivial
  · split <;> trivial
  · split <;> trivial
  · exact inside

private theorem expire_in_session {c : Client} (inside : InSession c.phase) :
    InSession c.expire.phase := by
  unfold Client.expire
  split
  · rename_i phase
    rw [phase] at inside
    exact inside.elim
  · trivial
  · trivial
  · trivial
  · exact inside

private theorem in_session_step {l : Label} {c d : Config δ} (inside : InSession c.client.phase)
    (moved : c.step bus l = some d) : InSession d.client.phase := by
  cases l with
  | start given =>
    have started : c.start given = some d := moved
    unfold Config.start at started
    split at started
    · rename_i phase
      rw [phase] at inside
      exact inside.elim
    · cases started
  | call op =>
    obtain ⟨client, request, called, rfl⟩ := Config.call_cases moved
    obtain ⟨idle, ⟨q, -, -, rfl⟩ | ⟨e, -, -, rfl⟩⟩ := Client.call_cases called
    · exact request_in_session q
    · exact inside
  | serve =>
    obtain ⟨next, -, rfl⟩ := Config.serve_cases moved
    exact inside
  | receive bytes =>
    obtain ⟨most, -, -, rfl⟩ := Config.receive_cases moved
    exact deliver_in_session inside _ _
  | endOfStream late =>
    obtain ⟨-, rfl⟩ := Config.end_of_stream_cases moved
    exact deliver_in_session inside _ _
  | timeout =>
    obtain ⟨-, rfl⟩ := Config.timeout_cases moved
    exact expire_in_session inside

private theorem greeting_busy {c : Config δ} (greeting : Greeting token buffer device c) :
    c.client.phase ≠ .idle ∧ ∀ error, c.client.phase ≠ .refused error := by
  cases greeting with
  | fresh same => subst same; exact ⟨nofun, nofun⟩
  | asked same => subst same; exact ⟨nofun, nofun⟩
  | answered data stream again rest short same => subst same; exact ⟨nofun, nofun⟩

private theorem unlocked_step {l : Label} {c d : Config δ} (long : token.length = 32)
    (before : Greeting token buffer device c ∨ InSession c.client.phase)
    (only : ∀ given, l = .start given → given = token) (patient : l ≠ .timeout)
    (moved : c.step bus l = some d) : Greeting token buffer device d ∨ InSession d.client.phase := by
  rcases before with greeting | inside
  · have delivered : Delivered token l c := by
      cases l with
      | start given => exact only given rfl
      | call op =>
        have idle := (Client.call_cases (Config.call_cases moved).choose_spec.choose_spec.1).1
        exact absurd idle (greeting_busy greeting).1
      | timeout => exact absurd rfl patient
      | _ => trivial
    obtain ⟨-, next | rfl, -⟩ := greeting_step long greeting delivered moved
    · exact .inl next
    · exact .inr trivial
  · exact .inr (in_session_step inside moved)

end Right

section Tokens

def tokenBytes (token : Token) : List Byte := token.toList.map fun c => low c.toNat

private theorem low_injective {m n : ℕ} (first : m < 256) (second : n < 256)
    (same : low m = low n) : m = n := by
  have mask (k : ℕ) (small : k < 256) : (low k).toNat = k := by
    rw [low, BitVec.toNat_ofNat, Nat.and_two_pow_sub_one_eq_mod k 8]
    omega
  rw [← mask m first, ← mask n second, same]

private theorem hex_small {c : Char} (hex : c ∈ "0123456789abcdef".toList) : c.toNat < 256 := by
  have all : ("0123456789abcdef".toList.all fun c => decide (c.toNat < 256)) = true := by decide
  exact of_decide_eq_true (List.all_eq_true.mp all c hex)

private theorem letters_injective {xs ys : List Char} (first : ∀ c ∈ xs, c.toNat < 256)
    (second : ∀ c ∈ ys, c.toNat < 256)
    (same : xs.map (fun c => low c.toNat) = ys.map fun c => low c.toNat) : xs = ys := by
  induction xs generalizing ys with
  | nil =>
    cases ys with
    | nil => rfl
    | cons y ys => cases same
  | cons x xs ih =>
    cases ys with
    | nil => cases same
    | cons y ys =>
      obtain ⟨here, later⟩ := List.cons.inj same
      have value := low_injective (first x List.mem_cons_self) (second y List.mem_cons_self) here
      have rest := ih (fun c member => first c (List.mem_cons_of_mem x member))
        (fun c member => second c (List.mem_cons_of_mem y member)) later
      rw [Char.toNat_inj.mp value, rest]

private theorem token_bytes_injective {t t' : Token} (first : Drawn t) (second : Drawn t')
    (same : tokenBytes t = tokenBytes t') : t = t' :=
  String.toList_inj.mp (letters_injective (fun c member => hex_small (first.hex c member))
    (fun c member => hex_small (second.hex c member)) same)

private theorem token_bytes_length {t : Token} (drawn : Drawn t) : (tokenBytes t).length = 32 := by
  rw [tokenBytes, List.length_map, drawn.long]

private theorem token_bytes_ne_confirmation {t : Token} (drawn : Drawn t) :
    tokenBytes t ≠ confirmation := by
  intro same
  have letter : (tokenBytes t)[12]? = confirmation[12]? := by rw [same]
  rw [tokenBytes, List.getElem?_map, drawn.version] at letter
  exact absurd letter (by decide)

end Tokens

/-- A server that was launched with one token, and a client that presents another one: over all ways
to schedule and cut the handshake the client is never let in, sends no request, and the server touches
nothing. A client that presents the same token is not refused, unless a receive times out. -/
theorem admission (bus : Bus δ) {t t' : Token} (drawn : Drawn t) (drawn' : Drawn t')
    (buffer : ℕ → Word) (device : δ) {labels : List Label} {c : Config δ}
    (path : run (Config.step bus) labels (Config.accepted (tokenBytes t) buffer device) = some c)
    (only : ∀ given, .start given ∈ labels → given = tokenBytes t') :
    (t' ≠ t → ¬ InSession c.client.phase ∧ c.client.requests = [] ∧ c.server.log = [] ∧
      c.server.device = device) ∧
    (t' = t → .timeout ∉ labels → ∀ error, c.client.phase ≠ .refused error) := by
  constructor
  · intro differ
    have wrong : tokenBytes t' ≠ tokenBytes t := fun same => differ (token_bytes_injective drawn' drawn same)
    have along : Along (Config.step bus) (fun l _ => ∀ given, l = .start given → given = tokenBytes t')
        labels (Config.accepted (tokenBytes t) buffer device) := by
      apply along_of_labels
      rintro l member s given rfl
      exact only given member
    obtain ⟨locked, untouched⟩ := run_invariant
      (fun c => Locked (tokenBytes t) (tokenBytes t') device c ∧ Untouched device c)
      (fun l s u before chosen moved => locked_step (token_bytes_length drawn)
        (token_bytes_length drawn') wrong (token_bytes_ne_confirmation drawn) before chosen moved)
      ⟨.fresh rfl rfl rfl rfl, rfl, rfl, rfl, rfl⟩ along path
    refine ⟨?_, untouched.requests, untouched.log, untouched.device⟩
    cases locked with
    | fresh phase => rw [phase]; exact id
    | asked again phase => rw [phase]; exact id
    | answered data again phase => rw [phase]; exact id
    | refused error phase => rw [phase]; exact id
  · rintro rfl patient
    have along : Along (Config.step bus)
        (fun l _ => (∀ given, l = .start given → given = tokenBytes t') ∧ l ≠ .timeout)
        labels (Config.accepted (tokenBytes t') buffer device) := by
      apply along_of_labels
      intro l member s
      refine ⟨?_, fun same => patient (same ▸ member)⟩
      rintro given rfl
      exact only given member
    have outcome := run_invariant
      (fun c => Greeting (tokenBytes t') buffer device c ∨ InSession c.client.phase)
      (fun l s u before chosen moved =>
        unlocked_step (token_bytes_length drawn) before chosen.1 chosen.2 moved)
      (.inl (.fresh rfl)) along path
    intro error refused
    rcases outcome with greeting | inside
    · exact (greeting_busy greeting).2 error refused
    · rw [refused] at inside
      exact inside

section Demonstration

def runningToken : Token := "0123456789ab4def0123456789abcdef"

def staleToken : Token := "fedcba98765443210fedcba987654321"

private theorem drawn_of_hex {t : Token} (long : t.toList.length = 32)
    (version : t.toList[12]? = some '4')
    (hex : (t.toList.all fun c => decide (c ∈ "0123456789abcdef".toList)) = true) : Drawn t :=
  ⟨long, fun c member => of_decide_eq_true (List.all_eq_true.mp hex c member), version⟩

private theorem drawn_running : Drawn runningToken := drawn_of_hex rfl rfl (by decide)

private theorem drawn_stale : Drawn staleToken := drawn_of_hex rfl rfl (by decide)

def knock (t : Token) : List Label := [.start (tokenBytes t), .serve, .receive 20, .receive 12]

private theorem knock_only {t : Token} {given : List Byte} (member : .start given ∈ knock t) :
    given = tokenBytes t := by
  simpa [knock] using member

theorem admission_stale : ∃ c, run (Config.step MonitorServer.latch) (knock staleToken)
    (Config.accepted (tokenBytes runningToken) (fun _ => 0) 5) = some c ∧
    ¬ InSession c.client.phase ∧ c.server.device = 5 := by
  obtain ⟨c, path⟩ : ∃ c, run (Config.step MonitorServer.latch) (knock staleToken)
      (Config.accepted (tokenBytes runningToken) (fun _ => 0) 5) = some c :=
    Option.isSome_iff_exists.mp (by decide +kernel)
  obtain ⟨out, -, -, same⟩ := (admission MonitorServer.latch drawn_running drawn_stale (fun _ => 0) 5
    path fun _ => knock_only).1 (by decide)
  exact ⟨c, path, out, same⟩

end Demonstration

end Pypga.Remote.Admission
