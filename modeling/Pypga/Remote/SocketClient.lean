/- GID: Pypga/Remote/SocketClient
   generality: G
   digest: The Python client of one thread: the requests it sends, and its receive loops piece by piece. -/

import Pypga.Foundation.LittleEndian

set_option autoImplicit false
set_option relaxedAutoImplicit false

namespace Pypga.Remote.SocketClient

open Pypga.Foundation.LittleEndian (Byte Word low encode decode)

/-- The public calls; addresses and offsets are 32-bit, values are `uint32`. -/
inductive Op
  | reads (addr : Word) (length : ℕ)
  | readFromRam (offset : Word) (length : ℕ)
  | writes (addr : Word) (values : List Word)
  deriving DecidableEq

inductive Request
  | read (addr : Word) (length : ℕ) (fits : length ≤ 65535)
  | ram (offset : Word) (length : ℕ) (fits : length < 2 ^ 23)
  | write (addr : Word) (values : List Word) (fits : values.length ≤ 65533)
  deriving DecidableEq

inductive Error
  | timeout
  | incomplete
  | wrongControl
  | length
  | wrongToken
  | undecodable
  | buffer
  deriving DecidableEq

inductive Outcome
  | words (ws : List Word)
  | done
  | raised (e : Error)
  deriving DecidableEq

def Op.request : Op → Except Error Request
  | .reads addr length => .ok (.read addr (min length 65535) (Nat.min_le_right length 65535))
  | .readFromRam offset length =>
    if short : length < 2 ^ 23 then .ok (.ram offset length short) else .error .length
  | .writes addr values =>
    .ok (.write addr (values.take (65535 - 2)) (List.length_take_le (65535 - 2) values))

def addressBytes (addr : Word) : List Byte :=
  [low addr.toNat, low (addr.toNat >>> 8), low (addr.toNat >>> 16), low (addr.toNat >>> 24)]

def Request.header : Request → List Byte
  | .read addr length _ =>
    [low 'r'.toNat, 0, low length, low (length >>> 8)] ++ addressBytes addr
  | .ram offset length _ =>
    [low 'd'.toNat, low length, low (length >>> 8), low (length >>> 16)] ++ addressBytes offset
  | .write addr values _ =>
    [low 'w'.toNat, 0, low values.length, low (values.length >>> 8)] ++ addressBytes addr

def Request.body : Request → List Byte
  | .read _ _ _ => []
  | .ram _ _ _ => []
  | .write _ values _ => encode values

def Request.bytes (q : Request) : List Byte := q.header ++ q.body

/-- Where the client stands between two of its socket operations. In a receive loop `again`
tells the receives of the loop body from the first one in front of it. -/
inductive Phase
  | unconnected
  | handshake (data : List Byte) (again : Bool)
  | idle
  | response (header : List Byte) (length : ℕ) (data : List Byte) (again : Bool)
  | acknowledgement (header : List Byte)
  | clearing (left : ℕ) (error : Error)
  | refused (error : Error)
  deriving DecidableEq

def Phase.acknowledging : Phase → Bool
  | .acknowledgement _ => true
  | _ => false

/-- A client with the requests it has sent, and for each call that has ended the number of
requests sent before it and its outcome. -/
structure Client where
  phase : Phase
  requests : List Request
  returned : List (ℕ × Outcome)
  deriving DecidableEq

/-- `np.frombuffer(bytes, dtype=np.uint32)`. -/
def frombuffer (bytes : List Byte) : Outcome :=
  if bytes.length % 4 = 0 then .words (decode bytes) else .raised .buffer

def Request.phase : Request → Phase
  | .read addr length fits => .response (Request.read addr length fits).header length [] false
  | .ram offset length fits => .response (Request.ram offset length fits).header length [] false
  | .write addr values fits => .acknowledgement (Request.write addr values fits).header

namespace Client

def connected : Client := ⟨.idle, [], []⟩

def call (op : Op) (c : Client) : Option (Client × List Byte) :=
  match c.phase with
  | .idle =>
    match op.request with
    | .ok q => some ({ c with phase := q.phase, requests := c.requests ++ [q] }, q.bytes)
    | .error e =>
      some ({ c with returned := c.returned ++ [(c.requests.length, .raised e)] }, [])
  | _ => none

def wanted (c : Client) : Option ℕ :=
  match c.phase with
  | .handshake data _ => some (32 - data.length)
  | .response _ length data _ => some (length * 4 + 8 - data.length)
  | .acknowledgement _ => some 8
  | .clearing _ _ => some 16384
  | _ => none

def finish (outcome : Outcome) (c : Client) : Client :=
  { c with phase := .idle, returned := c.returned ++ [(c.requests.length - 1, outcome)] }

def clear (error : Error) (c : Client) : Client := { c with phase := .clearing 100 error }

def greeted (data : List Byte) (c : Client) : Client :=
  if data.all fun b => b.toNat < 128 then
    if data = List.replicate 32 (low '1'.toNat) then { c with phase := .idle }
    else { c with phase := .refused .wrongToken }
  else { c with phase := .refused .undecodable }

def checked (header data : List Byte) (c : Client) : Client :=
  if data.take 8 = header then c.finish (frombuffer (data.drop 8)) else c.clear .wrongControl

/-- A receive returns a piece, which is empty only at the end of the stream; `late` tells
whether the deadline of the call has passed. -/
def deliver (piece : List Byte) (late : Bool) (c : Client) : Client :=
  match c.phase with
  | .handshake data again =>
    let data := data ++ piece
    if data.length < 32 ∧ ¬ (again = true ∧ piece = []) then
      { c with phase := .handshake data true }
    else c.greeted data
  | .response header length data again =>
    let data := data ++ piece
    if again = true ∧ piece = [] ∧ late = true then c.clear .incomplete
    else if data.length < length * 4 + 8 then
      { c with phase := .response header length data true }
    else c.checked header data
  | .acknowledgement header =>
    if piece = header then c.finish .done else c.clear .wrongControl
  | .clearing left error =>
    if piece = [] ∨ left ≤ 1 then c.finish (.raised error)
    else { c with phase := .clearing (left - 1) error }
  | _ => c

/-- A receive raises `socket.timeout`. Only a call that is clearing the socket already has
its own error to raise; the others leave with their bytes still in the stream. -/
def expire (c : Client) : Client :=
  match c.phase with
  | .handshake _ _ => { c with phase := .refused .timeout }
  | .response _ _ _ _ => c.finish (.raised .timeout)
  | .acknowledgement _ => c.finish (.raised .timeout)
  | .clearing _ error => c.finish (.raised error)
  | _ => c

theorem call_cases {op : Op} {c d : Client} {sent : List Byte} (h : c.call op = some (d, sent)) :
    c.phase = .idle ∧
      ((∃ q, op.request = .ok q ∧ sent = q.bytes ∧
          d = { c with phase := q.phase, requests := c.requests ++ [q] }) ∨
        ∃ e, op.request = .error e ∧ sent = [] ∧
          d = { c with returned := c.returned ++ [(c.requests.length, .raised e)] }) := by
  cases phase : c.phase with
  | idle =>
    refine ⟨rfl, ?_⟩
    cases request : op.request with
    | ok q =>
      simp only [call, phase, request, Option.some.injEq, Prod.mk.injEq] at h
      exact .inl ⟨q, rfl, h.2.symm, h.1.symm⟩
    | error e =>
      simp only [call, phase, request, Option.some.injEq, Prod.mk.injEq] at h
      refine .inr ⟨e, rfl, h.2.symm, ?_⟩
      rw [← h.1, ← phase]
  | _ => simp [call, phase] at h

theorem wanted_response {header data : List Byte} {length : ℕ} {again : Bool} {c : Client}
    (phase : c.phase = .response header length data again) :
    c.wanted = some (length * 4 + 8 - data.length) := by
  simp only [wanted, phase]

theorem wanted_acknowledgement {header : List Byte} {c : Client}
    (phase : c.phase = .acknowledgement header) : c.wanted = some 8 := by
  simp only [wanted, phase]

theorem deliver_more {header data piece : List Byte} {length : ℕ} {again : Bool} {c : Client}
    (phase : c.phase = .response header length data again)
    (short : (data ++ piece).length < length * 4 + 8) :
    c.deliver piece false = { c with phase := .response header length (data ++ piece) true } := by
  simp only [deliver, phase, Bool.false_eq_true, and_false, if_false, if_pos short]

theorem deliver_last {header data piece : List Byte} {length : ℕ} {again : Bool} {c : Client}
    (phase : c.phase = .response header length data again)
    (complete : ¬ (data ++ piece).length < length * 4 + 8) :
    c.deliver piece false = c.checked header (data ++ piece) := by
  simp only [deliver, phase, Bool.false_eq_true, and_false, if_false, if_neg complete]

theorem deliver_handshake_more {data piece : List Byte} {again : Bool} {c : Client}
    (phase : c.phase = .handshake data again) (more : (data ++ piece).length < 32)
    (arrived : piece ≠ []) :
    c.deliver piece false = { c with phase := .handshake (data ++ piece) true } := by
  simp only [deliver, phase, more, arrived, and_false, not_false_eq_true, and_self, if_true]

theorem deliver_handshake_last {data piece : List Byte} {again : Bool} {c : Client}
    (phase : c.phase = .handshake data again) (complete : ¬ (data ++ piece).length < 32) :
    c.deliver piece false = c.greeted (data ++ piece) := by
  simp only [deliver, phase, complete, false_and, if_false]

theorem piece_ne_nil {stream : List Byte} {bytes : ℕ} (positive : 0 < bytes)
    (there : bytes ≤ stream.length) : stream.take bytes ≠ [] := by
  intro empty
  rcases List.take_eq_nil_iff.mp empty with none_asked | rfl
  · omega
  · rw [List.length_nil] at there
    omega

theorem deliver_acknowledgement {header piece : List Byte} {c : Client} (late : Bool)
    (phase : c.phase = .acknowledgement header) :
    c.deliver piece late = if piece = header then c.finish .done else c.clear .wrongControl := by
  simp only [deliver, phase]

theorem request_phase_connected (q : Request) : q.phase ≠ .unconnected := by
  cases q <;> exact fun h => nomatch h

theorem deliver_requests (piece : List Byte) (late : Bool) (c : Client) :
    (c.deliver piece late).requests = c.requests := by
  unfold deliver
  split
  · dsimp only
    split
    · rfl
    · unfold greeted
      split
      · split <;> rfl
      · rfl
  · dsimp only
    split
    · rfl
    · split
      · rfl
      · unfold checked
        split <;> rfl
  · split <;> rfl
  · split <;> rfl
  · rfl

def Silent (c d : Client) : Prop :=
  (∀ header length data again, d.phase ≠ .response header length data again) ∧
    ∀ k ws, (k, Outcome.words ws) ∈ d.returned → (k, Outcome.words ws) ∈ c.returned

private theorem silent_finish {o : Outcome} (c : Client) (quiet : ∀ ws, o ≠ .words ws) :
    Silent c (c.finish o) := by
  refine ⟨fun _ _ _ _ busy => (nomatch busy), fun k ws inside => ?_⟩
  rcases List.mem_append.mp inside with before | last
  · exact before
  · have same := congrArg Prod.snd (List.mem_singleton.mp last)
    exact absurd same.symm (quiet ws)

private theorem silent_phase {c : Client} {phase : Phase}
    (quiet : ∀ header length data again, phase ≠ .response header length data again) :
    Silent c { c with phase := phase } := ⟨quiet, fun _ _ inside => inside⟩

private theorem silent_greeted (data : List Byte) (c : Client) : Silent c (c.greeted data) := by
  unfold greeted
  split
  · split
    · exact silent_phase fun _ _ _ _ busy => nomatch busy
    · exact silent_phase fun _ _ _ _ busy => nomatch busy
  · exact silent_phase fun _ _ _ _ busy => nomatch busy

theorem deliver_cases (piece : List Byte) (late : Bool) (c : Client) :
    Silent c (c.deliver piece late) ∨
      ∃ header length data again, c.phase = .response header length data again ∧
        ((data ++ piece).length < length * 4 + 8 ∧
            c.deliver piece late =
              { c with phase := .response header length (data ++ piece) true } ∨
          length * 4 + 8 ≤ (data ++ piece).length ∧ (data ++ piece).take 8 = header ∧
            c.deliver piece late = c.finish (frombuffer ((data ++ piece).drop 8))) := by
  have clear (e : Error) : Silent c (c.clear e) := silent_phase fun _ _ _ _ busy => nomatch busy
  cases phase : c.phase with
  | response header length data again =>
    by_cases ended : again = true ∧ piece = [] ∧ late = true
    · left
      simp only [deliver, phase, if_pos ended]
      exact clear .incomplete
    · by_cases short : (data ++ piece).length < length * 4 + 8
      · refine .inr ⟨header, length, data, again, rfl, .inl ⟨short, ?_⟩⟩
        simp only [deliver, phase, if_neg ended, if_pos short]
      · by_cases echo : (data ++ piece).take 8 = header
        · refine .inr ⟨header, length, data, again, rfl, .inr ⟨by omega, echo, ?_⟩⟩
          simp only [deliver, phase, if_neg ended, if_neg short, checked, if_pos echo]
        · left
          simp only [deliver, phase, if_neg ended, if_neg short, checked, if_neg echo]
          exact clear .wrongControl
  | handshake data again =>
    left
    simp only [deliver, phase]
    split
    · exact silent_phase fun _ _ _ _ busy => nomatch busy
    · exact silent_greeted _ c
  | acknowledgement header =>
    left
    simp only [deliver, phase]
    split
    · exact silent_finish c fun _ other => nomatch other
    · exact clear .wrongControl
  | clearing left_over error =>
    left
    simp only [deliver, phase]
    split
    · exact silent_finish c fun _ other => nomatch other
    · exact silent_phase fun _ _ _ _ busy => nomatch busy
  | _ =>
    left
    simp only [deliver, phase]
    exact ⟨by simp [phase], fun _ _ inside => inside⟩

theorem expire_silent {c : Client} (waiting : c.wanted.isSome = true) : Silent c c.expire := by
  cases phase : c.phase with
  | handshake data again =>
    simp only [expire, phase]
    exact silent_phase fun _ _ _ _ busy => nomatch busy
  | response header length data again =>
    simp only [expire, phase]
    exact silent_finish c fun _ other => nomatch other
  | acknowledgement header =>
    simp only [expire, phase]
    exact silent_finish c fun _ other => nomatch other
  | clearing left_over error =>
    simp only [expire, phase]
    exact silent_finish c fun _ other => nomatch other
  | _ => simp [wanted, phase] at waiting

theorem expire_requests (c : Client) : c.expire.requests = c.requests := by
  unfold expire
  split <;> rfl

theorem deliver_connected (piece : List Byte) (late : Bool) {c : Client}
    (opened : c.phase ≠ .unconnected) : (c.deliver piece late).phase ≠ .unconnected := by
  unfold deliver
  split
  · dsimp only
    split
    · simp
    · unfold greeted
      split
      · split <;> simp
      · simp
  · dsimp only
    split
    · simp [clear]
    · split
      · simp
      · unfold checked
        split <;> simp [finish, clear]
  · split <;> simp [finish, clear]
  · split <;> simp [finish]
  · exact opened

theorem expire_connected {c : Client} (opened : c.phase ≠ .unconnected) :
    c.expire.phase ≠ .unconnected := by
  unfold expire
  split
  · simp
  · simp [finish]
  · simp [finish]
  · simp [finish]
  · exact opened

end Client

end Pypga.Remote.SocketClient
