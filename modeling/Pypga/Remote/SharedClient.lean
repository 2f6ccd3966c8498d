/- GID: Pypga/Remote/SharedClient
   generality: G
   digest: Threads share one client; the lock keeps their commands apart, and only stop goes past it. -/

import Pypga.Foundation.LabelledRun
import Pypga.Remote.CommandStream

set_option autoImplicit false
set_option relaxedAutoImplicit false

namespace Pypga.Remote.SharedClient

open Pypga.Foundation.LabelledRun
open Pypga.Foundation.LittleEndian (Byte low two_bytes encode_length)
open Pypga.Remote.MonitorServer (Bus Server)
open Pypga.Remote.SocketClient (Op Request)
open Pypga.Remote.RequestExecution (header_length)
open Pypga.Remote.CommandStream

/-- What a thread does with the client; `sending` and `receiving` are inside the `with` block. -/
inductive Activity
  | resting
  | waiting (q : Request)
  | sending (q : Request) (rest : List Byte)
  | receiving
  | closing

/-- Threads inside the `with` block. -/
def Activity.inside : Activity → Bool
  | .sending _ _ => true
  | .receiving => true
  | _ => false

structure Shared (τ : Type*) where
  lock : Option τ
  activity : τ → Activity
  closed : Bool
  stream : List Byte

inductive Label (τ : Type*)
  | call (t : τ) (op : Op)
  | acquire (t : τ)
  | push (t : τ) (bytes : ℕ)
  | sent (t : τ)
  | abandon (t : τ)
  | leave (t : τ)
  | stopSend (t : τ) (bytes : ℕ)
  | stopFail (t : τ)
  | stopClose (t : τ)

namespace Shared

variable {τ : Type*}

def start : Shared τ := ⟨none, fun _ => .resting, false, []⟩

/-- No `sendall` has handed over only a part of its bytes. -/
def Quiet (s : Shared τ) : Prop :=
  ∀ t q rest, s.activity t = .sending q rest → rest = q.bytes ∨ rest = []

/-- The stream is these complete commands, and the part of one more that a `sendall` in progress
has handed over. -/
def Intact (s : Shared τ) (commands : List Command) (part : List Byte) : Prop :=
  s.stream = commands.flatMap Command.bytes ++ part ∧
    (part = [] ∨ ∃ t q rest, s.activity t = .sending q rest ∧ part ++ rest = q.bytes ∧
      rest ≠ [] ∧ s.closed = false)

/-- The steps that go past the lock, or break a `sendall` off, find no command half sent. -/
def Exclusive (l : Label τ) (s : Shared τ) : Prop :=
  match l with
  | .stopSend _ bytes => bytes = 8 ∧ s.Quiet
  | .stopClose _ => s.Quiet
  | .abandon _ => s.Quiet
  | _ => True

structure Partway (s : Shared τ) (part : List Byte) : Prop where
  started : part ≠ []
  sender : ∃ t q rest, s.activity t = .sending q rest ∧ part ++ rest = q.bytes ∧ rest ≠ [] ∧
    s.closed = false

structure Disciplined (s : Shared τ) : Prop where
  held : ∀ t, (s.activity t).inside = true → s.lock = some t
  stream : ∃ (commands : List Command) (part : List Byte),
    s.stream = commands.flatMap Command.bytes ++ part ∧
      (part = [] ∧ s.Quiet ∨ Partway s part)

private theorem partway_not_quiet {s : Shared τ} {part : List Byte} (partway : Partway s part) :
    ¬ s.Quiet := by
  intro quiet
  obtain ⟨started, t, q, rest, sending, all, missing, -⟩ := partway
  rcases quiet t q rest sending with whole | none_left
  · rw [← whole] at all
    exact started (List.append_left_eq_self.mp all)
  · exact missing none_left

private theorem stream_of_quiet {s : Shared τ} (disciplined : Disciplined s) (quiet : s.Quiet) :
    ∃ commands : List Command, s.stream = commands.flatMap Command.bytes := by
  obtain ⟨commands, part, stream, ⟨whole, -⟩ | partway⟩ := disciplined.stream
  · refine ⟨commands, ?_⟩
    rw [stream, whole, List.append_nil]
  · exact absurd quiet (partway_not_quiet partway)

private theorem disciplined_start : Disciplined (start : Shared τ) := by
  refine ⟨fun _ inside => (nomatch inside), [], [], rfl, .inl ⟨rfl, ?_⟩⟩
  intro t q rest sending
  cases sending

variable [DecidableEq τ]

def enter (t : τ) (a : Activity) (s : Shared τ) : Shared τ :=
  { s with activity := Function.update s.activity t a }

/-- `sendall` hands over its bytes in pieces and may raise in between; `stop` sends without the
lock, and closes if its send did not raise. -/
def step : Label τ → Shared τ → Option (Shared τ)
  | .call t op, s =>
    match s.activity t, op.request with
    | .resting, .ok q => some (s.enter t (.waiting q))
    | .resting, .error _ => some s
    | _, _ => none
  | .acquire t, s =>
    match s.activity t, s.lock with
    | .waiting q, none => some { s.enter t (.sending q q.bytes) with lock := some t }
    | _, _ => none
  | .push t bytes, s =>
    match s.activity t with
    | .sending q rest =>
      if 0 < bytes ∧ bytes ≤ rest.length ∧ s.closed = false then
        some { s.enter t (.sending q (rest.drop bytes)) with
          stream := s.stream ++ rest.take bytes }
      else none
    | _ => none
  | .sent t, s =>
    match s.activity t with
    | .sending _ [] => some (s.enter t .receiving)
    | _ => none
  | .abandon t, s =>
    match s.activity t with
    | .sending _ _ => some { s.enter t .resting with lock := none }
    | _ => none
  | .leave t, s =>
    match s.activity t with
    | .receiving => some { s.enter t .resting with lock := none }
    | _ => none
  | .stopSend t bytes, s =>
    match s.activity t with
    | .resting =>
      if 0 < bytes ∧ bytes ≤ 8 ∧ s.closed = false then
        some { s.enter t .closing with stream := s.stream ++ closeBytes.take bytes }
      else none
    | _ => none
  | .stopFail t, s =>
    match s.activity t with
    | .resting => some s
    | _ => none
  | .stopClose t, s =>
    match s.activity t with
    | .closing => some { s.enter t .resting with closed := true }
    | _ => none

private theorem quiet_update {s s' : Shared τ} {t : τ} {a : Activity}
    (act : s'.activity = Function.update s.activity t a)
    (fine : ∀ q rest, a = .sending q rest → rest = q.bytes ∨ rest = []) (quiet : s.Quiet) :
    s'.Quiet := by
  intro u q rest sending
  rw [act, Function.update_apply] at sending
  split at sending
  · exact fine q rest sending
  · exact quiet u q rest sending

private theorem partway_update {s s' : Shared τ} {t : τ} {a : Activity} {part : List Byte}
    (act : s'.activity = Function.update s.activity t a) (closed : s'.closed = s.closed)
    (other : ∀ q rest, s.activity t = .sending q rest → rest = []) (partway : Partway s part) :
    Partway s' part := by
  obtain ⟨started, u, q, rest, sending, all, missing, opened⟩ := partway
  have apart : u ≠ t := by
    intro same
    exact missing (other q rest (same ▸ sending))
  refine ⟨started, u, q, rest, ?_, all, missing, closed.trans opened⟩
  rw [act, Function.update_of_ne apart, sending]

private theorem held_update {s s' : Shared τ} {t : τ} {a : Activity}
    (act : s'.activity = Function.update s.activity t a) (lock : s'.lock = s.lock)
    (inside : a.inside = true → s.lock = some t)
    (held : ∀ u, (s.activity u).inside = true → s.lock = some u) :
    ∀ u, (s'.activity u).inside = true → s'.lock = some u := by
  intro u there
  rw [act, Function.update_apply] at there
  rw [lock]
  split at there
  · rename_i same
    rw [same]
    exact inside there
  · exact held u there

private theorem held_release {s s' : Shared τ} {t : τ} {a : Activity}
    (act : s'.activity = Function.update s.activity t a) (outside : a.inside = false)
    (here : (s.activity t).inside = true)
    (held : ∀ u, (s.activity u).inside = true → s.lock = some u) :
    ∀ u, (s'.activity u).inside = true → s'.lock = some u := by
  intro u there
  rw [act, Function.update_apply] at there
  split at there
  · rw [outside] at there
    cases there
  · rename_i apart
    have same := (held u there).symm.trans (held t here)
    exact absurd (Option.some.inj same) apart

private theorem stream_update {s s' : Shared τ} {t : τ} {a : Activity}
    (act : s'.activity = Function.update s.activity t a) (closed : s'.closed = s.closed)
    (same : s'.stream = s.stream)
    (fine : ∀ q rest, a = .sending q rest → rest = q.bytes ∨ rest = [])
    (other : ∀ q rest, s.activity t = .sending q rest → rest = [])
    (disciplined : Disciplined s) :
    ∃ (commands : List Command) (part : List Byte),
      s'.stream = commands.flatMap Command.bytes ++ part ∧
        (part = [] ∧ s'.Quiet ∨ Partway s' part) := by
  obtain ⟨commands, part, stream, ⟨whole, quiet⟩ | partway⟩ := disciplined.stream
  · exact ⟨commands, part, same.trans stream, .inl ⟨whole, quiet_update act fine quiet⟩⟩
  · exact ⟨commands, part, same.trans stream, .inr (partway_update act closed other partway)⟩

private theorem stream_whole {s s' : Shared τ} {t : τ} {a : Activity} (commands : List Command)
    (act : s'.activity = Function.update s.activity t a)
    (fine : ∀ q rest, a = .sending q rest → rest = q.bytes ∨ rest = []) (quiet : s.Quiet)
    (whole : s'.stream = commands.flatMap Command.bytes) :
    ∃ (commands : List Command) (part : List Byte),
      s'.stream = commands.flatMap Command.bytes ++ part ∧
        (part = [] ∧ s'.Quiet ∨ Partway s' part) := by
  refine ⟨commands, [], ?_, .inl ⟨rfl, quiet_update act fine quiet⟩⟩
  rw [List.append_nil]
  exact whole

private theorem flatMap_snoc (commands : List Command) (c : Command) :
    (commands ++ [c]).flatMap Command.bytes = commands.flatMap Command.bytes ++ c.bytes := by
  rw [List.flatMap_append, List.flatMap_singleton]

private theorem disciplined_push {t : τ} {bytes : ℕ} {s s' : Shared τ}
    (disciplined : Disciplined s) (moved : s.step (.push t bytes) = some s') :
    Disciplined s' := by
  cases here : s.activity t with
  | sending q rest =>
    simp only [step, here, Option.ite_none_right_eq_some, Option.some.injEq] at moved
    obtain ⟨⟨positive, within, opened⟩, rfl⟩ := moved
    have locked := disciplined.held t (by rw [here]; rfl)
    -- what was handed over before this piece
    obtain ⟨commands, part, stream, before, quiet⟩ :
        ∃ (commands : List Command) (part : List Byte),
          s.stream = commands.flatMap Command.bytes ++ part ∧ part ++ rest = q.bytes ∧
          ∀ u p r, u ≠ t → s.activity u = .sending p r → r = p.bytes ∨ r = [] := by
      obtain ⟨commands, part, stream, ⟨whole, quiet⟩ | partway⟩ := disciplined.stream
      · refine ⟨commands, part, stream, ?_, fun u p r _ => quiet u p r⟩
        rcases quiet t q rest here with unsent | none_left
        · rw [whole, unsent, List.nil_append]
        · rw [none_left, List.length_nil] at within
          omega
      · obtain ⟨started, u, p, r, sending, all, missing, -⟩ := partway
        have same : u = t := by
          have locked' := disciplined.held u (by rw [sending]; rfl)
          exact Option.some.inj (locked'.symm.trans locked)
        subst same
        rw [here] at sending
        obtain ⟨rfl, rfl⟩ := Activity.sending.inj sending
        refine ⟨commands, part, stream, all, fun v p' r' apart other => ?_⟩
        have locked' := disciplined.held v (by rw [other]; rfl)
        exact absurd (Option.some.inj (locked'.symm.trans locked)) apart
    refine ⟨held_update rfl rfl (fun _ => locked) disciplined.held, ?_⟩
    have joined : part ++ rest.take bytes ++ rest.drop bytes = q.bytes := by
      rw [List.append_assoc, List.take_append_drop, before]
    by_cases finished : rest.drop bytes = []
    · rw [finished, List.append_nil] at joined
      refine ⟨commands ++ [.request q], [], ?_, .inl ⟨rfl, ?_⟩⟩
      · rw [flatMap_snoc, List.append_nil, Command.bytes, ← joined, stream, List.append_assoc]
      · intro u p r sending
        show r = p.bytes ∨ r = []
        simp only [enter, Function.update_apply] at sending
        split at sending
        · obtain ⟨-, rfl⟩ := Activity.sending.inj sending
          exact .inr finished
        · rename_i apart
          exact quiet u p r apart sending
    · refine ⟨commands, part ++ rest.take bytes, ?_, .inr ⟨?_, t, q, rest.drop bytes, ?_, joined,
        finished, opened⟩⟩
      · rw [stream, List.append_assoc]
      · intro nothing
        have size := congrArg List.length (List.append_eq_nil_iff.mp nothing).2
        rw [List.length_take, Nat.min_eq_left within] at size
        exact absurd size positive.ne'
      · exact Function.update_self t _ s.activity
  | _ => simp [step, here] at moved

private theorem disciplined_acquire {t : τ} {s s' : Shared τ} (disciplined : Disciplined s)
    (moved : s.step (.acquire t) = some s') : Disciplined s' := by
  cases here : s.activity t with
  | waiting q =>
    cases free : s.lock with
    | none =>
      simp only [step, here, free, Option.some.injEq] at moved
      subst moved
      constructor
      · intro u inside
        by_cases same : u = t
        · rw [same]
        · have before : (s.activity u).inside = true := by
            simpa only [enter, Function.update_of_ne same] using inside
          have locked := disciplined.held u before
          rw [free] at locked
          cases locked
      · refine stream_update (t := t) (s := s) rfl rfl rfl ?_ ?_ disciplined
        · intro p rest sending
          obtain ⟨rfl, rfl⟩ := Activity.sending.inj sending
          exact .inl rfl
        · intro p rest sending
          simp [here] at sending
    | some u => simp [step, here, free] at moved
  | _ => simp [step, here] at moved

private theorem disciplined_sent {t : τ} {s s' : Shared τ} (disciplined : Disciplined s)
    (moved : s.step (.sent t) = some s') : Disciplined s' := by
  cases here : s.activity t with
  | sending q rest =>
    cases rest with
    | nil =>
      simp only [step, here, Option.some.injEq] at moved
      subst moved
      have locked := disciplined.held t (by rw [here]; rfl)
      refine ⟨held_update rfl rfl (fun _ => locked) disciplined.held, ?_⟩
      refine stream_update (t := t) (s := s) rfl rfl rfl (fun _ _ wrong => nomatch wrong) ?_
        disciplined
      intro p rest sending
      rw [here] at sending
      exact (Activity.sending.inj sending).2.symm
    | cons b rest => simp [step, here] at moved
  | _ => simp [step, here] at moved

private theorem disciplined_abandon {t : τ} {s s' : Shared τ} (disciplined : Disciplined s)
    (quiet : s.Quiet) (moved : s.step (.abandon t) = some s') : Disciplined s' := by
  cases here : s.activity t with
  | sending q rest =>
    simp only [step, here, Option.some.injEq] at moved
    subst moved
    obtain ⟨commands, stream⟩ := stream_of_quiet disciplined quiet
    have inside : (s.activity t).inside = true := by rw [here]; rfl
    refine ⟨held_release rfl rfl inside disciplined.held, ?_⟩
    exact stream_whole commands rfl (fun _ _ wrong => nomatch wrong) quiet stream
  | _ => simp [step, here] at moved

private theorem disciplined_leave {t : τ} {s s' : Shared τ} (disciplined : Disciplined s)
    (moved : s.step (.leave t) = some s') : Disciplined s' := by
  cases here : s.activity t with
  | receiving =>
    simp only [step, here, Option.some.injEq] at moved
    subst moved
    have inside : (s.activity t).inside = true := by rw [here]; rfl
    refine ⟨held_release rfl rfl inside disciplined.held, ?_⟩
    exact stream_update (t := t) (s := s) rfl rfl rfl (fun _ _ wrong => nomatch wrong)
      (fun _ _ wrong => by simp [here] at wrong) disciplined
  | _ => simp [step, here] at moved

private theorem disciplined_stop_send {t : τ} {bytes : ℕ} {s s' : Shared τ}
    (disciplined : Disciplined s) (whole : bytes = 8) (quiet : s.Quiet)
    (moved : s.step (.stopSend t bytes) = some s') : Disciplined s' := by
  cases here : s.activity t with
  | resting =>
    simp only [step, here, Option.ite_none_right_eq_some, Option.some.injEq] at moved
    obtain ⟨-, rfl⟩ := moved
    obtain ⟨commands, stream⟩ := stream_of_quiet disciplined quiet
    refine ⟨held_update rfl rfl (fun wrong => nomatch wrong) disciplined.held, ?_⟩
    refine stream_whole (commands ++ [.close]) rfl ?_ quiet ?_
    · exact fun _ _ wrong => nomatch wrong
    · rw [flatMap_snoc, stream, whole]
      rfl
  | _ => simp [step, here] at moved

private theorem disciplined_stop_close {t : τ} {s s' : Shared τ} (disciplined : Disciplined s)
    (quiet : s.Quiet) (moved : s.step (.stopClose t) = some s') : Disciplined s' := by
  cases here : s.activity t with
  | closing =>
    simp only [step, here, Option.some.injEq] at moved
    subst moved
    obtain ⟨commands, stream⟩ := stream_of_quiet disciplined quiet
    refine ⟨held_update rfl rfl (fun wrong => nomatch wrong) disciplined.held, ?_⟩
    exact stream_whole commands rfl (fun _ _ wrong => nomatch wrong) quiet stream
  | _ => simp [step, here] at moved

private theorem disciplined_step {l : Label τ} {s s' : Shared τ} (disciplined : Disciplined s)
    (exclusive : Exclusive l s) (moved : s.step l = some s') : Disciplined s' := by
  cases l with
  | call t op =>
    cases here : s.activity t with
    | resting =>
      cases request : op.request with
      | ok q =>
        simp only [step, here, request, Option.some.injEq] at moved
        subst moved
        refine ⟨held_update rfl rfl (fun wrong => nomatch wrong) disciplined.held, ?_⟩
        exact stream_update (t := t) (s := s) rfl rfl rfl (fun _ _ wrong => nomatch wrong)
          (fun _ _ wrong => by simp [here] at wrong) disciplined
      | error e =>
        simp only [step, here, request, Option.some.injEq] at moved
        exact moved ▸ disciplined
    | _ => simp [step, here] at moved
  | acquire t => exact disciplined_acquire disciplined moved
  | push t bytes => exact disciplined_push disciplined moved
  | sent t => exact disciplined_sent disciplined moved
  | abandon t => exact disciplined_abandon disciplined exclusive moved
  | leave t => exact disciplined_leave disciplined moved
  | stopSend t bytes => exact disciplined_stop_send disciplined exclusive.1 exclusive.2 moved
  | stopFail t =>
    cases here : s.activity t with
    | resting =>
      simp only [step, here, Option.some.injEq] at moved
      exact moved ▸ disciplined
    | _ => simp [step, here] at moved
  | stopClose t => exact disciplined_stop_close disciplined exclusive moved

end Shared

/-- In every interleaving in which `stop`, and a `sendall` that raises, find no command half sent,
the server receives complete commands and the beginning of at most one more that is still being
sent, and a server that reads this stream executes these commands and nothing else. An empty write
at the very end still waits for a byte behind it. -/
theorem commands_stay_whole {τ : Type*} [DecidableEq τ] (labels : List (Label τ)) (s : Shared τ)
    (path : run Shared.step labels Shared.start = some s)
    (exclusive : Along Shared.step Shared.Exclusive labels Shared.start) :
    ∃ (commands : List Command) (part : List Byte), s.Intact commands part ∧
      ∀ (δ : Type) (bus : Bus δ) (server : Server δ), server.phase = .header →
        ∀ n, (consume bus (n + 2 * commands.length) server s.stream).log =
          (obeyAll bus (ready part commands) server).log := by
  have disciplined := run_invariant Shared.Disciplined
    (fun _ _ _ before ok moved => Shared.disciplined_step before ok moved)
    Shared.disciplined_start exclusive path
  obtain ⟨commands, part, stream, state⟩ := disciplined.stream
  have intact : part = [] ∨ ∃ t q rest, s.activity t = .sending q rest ∧ part ++ rest = q.bytes ∧
      rest ≠ [] ∧ s.closed = false := by
    rcases state with ⟨whole, -⟩ | partway
    · exact .inl whole
    · exact .inr partway.sender
  refine ⟨commands, part, ⟨stream, intact⟩, fun δ bus server phase n => ?_⟩
  rw [stream]
  rcases intact with rfl | ⟨t, q, rest, -, begins, missing, -⟩
  · exact consume_commands bus (List.nil_append (Request.read 0 0 (Nat.zero_le _)).bytes)
      (fun wrong => nomatch wrong) commands n (.inl phase)
  · exact consume_commands bus begins missing commands n (.inl phase)

def stopAfterRead : List (Label Bool) :=
  [.call false (.reads 0x40000000 1), .acquire false, .push false 8, .stopSend true 8]

def stopInsideWrite : List (Label Bool) :=
  [.call false (.writes 0x40000000 [7]), .acquire false, .push false 8, .stopSend true 8,
    .push false 4, .sent false]

theorem commands_stay_whole_stop_after_read :
    ∃ s, run Shared.step stopAfterRead Shared.start = some s ∧
      ∃ commands part, s.Intact commands part := by
  have exclusive : Along Shared.step Shared.Exclusive stopAfterRead Shared.start := by
    refine ⟨trivial, fun s₁ first => ?_⟩
    obtain rfl := Option.some.inj first
    refine ⟨trivial, fun s₂ second => ?_⟩
    obtain rfl := Option.some.inj second
    refine ⟨trivial, fun s₃ third => ?_⟩
    obtain rfl := Option.some.inj third
    refine ⟨⟨rfl, fun t q rest sending => ?_⟩, fun _ _ => trivial⟩
    cases t with
    | false => exact .inr (Activity.sending.inj sending).2.symm
    | true => cases sending
  obtain ⟨commands, part, intact, -⟩ := commands_stay_whole stopAfterRead _ rfl exclusive
  exact ⟨_, rfl, commands, part, intact⟩

private theorem torn_write (commands : List Command) :
    commands.flatMap Command.bytes ≠
      (Request.write 0x40000000 [7] (by decide)).header ++ closeBytes ++ [7, 0, 0, 0] := by
  intro same
  cases commands with
  | nil => cases same
  | cons c cs =>
    rw [List.flatMap_cons] at same
    cases c with
    | close =>
      have letters : some (low 'c'.toNat) = some (low 'w'.toNat) := congrArg List.head? same
      exact absurd letters (by decide)
    | request q =>
      cases q with
      | read addr length fits =>
        have letters : some (low 'r'.toNat) = some (low 'w'.toNat) := congrArg List.head? same
        exact absurd letters (by decide)
      | ram offset length fits =>
        have letters : some (low 'd'.toNat) = some (low 'w'.toNat) := congrArg List.head? same
        exact absurd letters (by decide)
      | write addr values fits =>
        -- a write of one word takes four bytes of the message, and the rest of it begins nothing
        have third : some (low values.length) = some (low 1) := congrArg (fun l => l[2]?) same
        have fourth : some (low (values.length >>> 8)) = some (low 0) :=
          congrArg (fun l => l[3]?) same
        have one : values.length = 1 := by
          have sum := two_bytes (n := values.length) (by omega)
          rw [Option.some.inj third, Option.some.inj fourth] at sum
          exact sum.symm
        have twelve : (Command.request (.write addr values fits)).bytes.length = 12 := by
          rw [Command.bytes, Request.bytes, List.length_append, header_length, Request.body,
            encode_length, one]
        have tail : cs.flatMap Command.bytes = [0, 0, 0, 0, 7, 0, 0, 0] := by
          have dropped := congrArg (List.drop 12) same
          rw [List.drop_left' twelve] at dropped
          exact dropped
        cases cs with
        | nil => cases tail
        | cons c cs =>
          obtain ⟨letter, known, rest, begins⟩ := command_letter c
          rw [List.flatMap_cons, begins] at tail
          have zero : letter = 0 := (List.cons.inj tail).1
          rw [zero] at known
          exact absurd known (by decide)

/-- The server reads the first four bytes of the message of `stop` as the word to write. -/
theorem stop_inside_write_counterexample :
    ∃ s, run Shared.step stopInsideWrite Shared.start = some s ∧
      (∀ commands part, ¬ s.Intact commands part) ∧
      (consume MonitorServer.latch 2 ⟨.header, fun _ => 0, 0, []⟩ s.stream).log =
        [.writeValues 0x40000000 [0x63]] := by
  refine ⟨_, rfl, ?_, by decide⟩
  rintro commands part ⟨stream, rfl | ⟨t, q, rest, sending, -⟩⟩
  · rw [List.append_nil] at stream
    exact torn_write commands stream.symm
  · cases t with
    | false => cases sending
    | true => cases sending

end Pypga.Remote.SharedClient
