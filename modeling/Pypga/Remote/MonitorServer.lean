/- GID: Pypga.Remote.MonitorServer
   generality: G
   digest: The monitor server: authentication, the service loop, and its three ways to touch the board. -/

import Pypga.Foundation.LittleEndian
import Mathlib.Logic.Function.Basic

set_option autoImplicit false
set_option relaxedAutoImplicit false

namespace Pypga.Remote.MonitorServer

open Pypga.Foundation.LittleEndian (Byte Word low ofBytes decode)

def maxLength : ℕ := 65535

def ramSize : ℕ := 0x2000000

def ramMask : Word := 0x1FFFFFF

/-- The memory the server maps: the registers at their physical addresses, and the bytes
from the start of the RAM area on. A byte behind the area may be unmapped; how many of the bytes
in front of it a `send` still hands over, `handed`, is up to the kernel. -/
structure Bus (δ : Type*) where
  load : Word → δ → Word × δ
  store : Word → Word → δ → δ
  fetch : ℕ → δ → Option (Byte × δ)
  handed : δ → ℕ
  mapped : ∀ offset d, offset < ramSize → (fetch offset d).isSome = true

/-- A board with a single register at every address and an empty RAM area. -/
def latch : Bus Word where
  load _ d := (d, d)
  store _ value _ := value
  fetch _ d := some (0, d)
  handed _ := 0
  mapped _ _ _ := rfl

inductive Execution
  | readValues (address : Word) (length : ℕ) (words : List Word)
  | writeValues (address : Word) (words : List Word)
  | ramCopy (offset : Word) (points : ℕ) (words : List Word)
  deriving DecidableEq

inductive Phase
  | token (expected : List Byte)
  | header
  | body (header : List Byte) (address : Word) (length : ℕ)
  | closed
  | failed
  deriving DecidableEq

/-- A forked server process; `buffer` is `rw_buffer`, which is never cleared. -/
structure Server (δ : Type*) where
  phase : Phase
  buffer : ℕ → Word
  device : δ
  log : List Execution

variable {δ : Type*} (bus : Bus δ)

/-- The word that selects the entry `i` of a memory register. -/
def indexWord (i : ℕ) : Word := (BitVec.ofNat 32 i <<< 1) ||| 1

def readEntry (address : Word) (state : (ℕ → Word) × δ) (i : ℕ) : (ℕ → Word) × δ :=
  let loaded := bus.load address (bus.store address (indexWord i) state.2)
  (Function.update state.1 i loaded.1, loaded.2)

/-- A single word is read without an index. -/
def readValues (address : Word) (length : ℕ) (state : (ℕ → Word) × δ) : (ℕ → Word) × δ :=
  if 1 < length then (List.range length).foldl (readEntry bus address) state
  else
    let loaded := bus.load address state.2
    (Function.update state.1 0 loaded.1, loaded.2)

def writeEntry (address : Word) (values : ℕ → Word) (d : δ) (i : ℕ) : δ :=
  bus.store address (values i <<< 1) (bus.store address (indexWord i) d)

/-- A single word is written without an index, also when the length is zero. -/
def writeValues (address : Word) (values : ℕ → Word) (length : ℕ) (d : δ) : δ :=
  if 1 < length then (List.range length).foldl (writeEntry bus address values) d
  else bus.store address (values 0) d

def ramCopy (offset : ℕ) : ℕ → δ → List Byte × δ
  | 0, d => ([], d)
  | n + 1, d =>
    match bus.fetch offset d with
    | none => ([], d)
    | some (b, d) =>
      let rest := ramCopy (offset + 1) n d
      (b :: rest.1, rest.2)

def fill (buffer : ℕ → Word) (words : List Word) : ℕ → Word := fun i => words.getD i (buffer i)

def entries (buffer : ℕ → Word) (length : ℕ) : List Word := (List.range length).map buffer

namespace Server

def read (header : List Byte) (address : Word) (length : ℕ) (s : Server δ) :
    Server δ × List Byte :=
  let state := readValues bus address length (s.buffer, s.device)
  let words := entries state.1 length
  ({ s with
      phase := .header
      buffer := state.1
      device := state.2
      log := s.log ++ [.readValues address length words] },
    header ++ Foundation.LittleEndian.encode words)

def copy (header : List Byte) (address : Word) (points : ℕ) (s : Server δ) :
    Server δ × List Byte :=
  let offset := address &&& ramMask
  let bytes := ramCopy bus offset.toNat (4 * points) s.device
  if bytes.1.length = 4 * points then
    ({ s with
        phase := .header
        device := bytes.2
        log := s.log ++ [.ramCopy offset points (decode bytes.1)] },
      header ++ bytes.1)
  else ({ s with phase := .failed, device := bytes.2 },
    header ++ bytes.1.take (bus.handed s.device))

def write (header : List Byte) (address : Word) (length : ℕ) (body : List Byte)
    (s : Server δ) : Server δ × List Byte :=
  let buffer := fill s.buffer (decode body)
  ({ s with
      phase := .header
      buffer := buffer
      device := writeValues bus address buffer length s.device
      log := s.log ++ [.writeValues address (entries buffer length)] },
    header)

/-- The dispatch on the eight bytes of a header. A length over the maximum, which two bytes
cannot express, would be skipped without an answer. -/
def command (b₀ b₁ b₂ b₃ b₄ b₅ b₆ b₇ : Byte) (s : Server δ) : Server δ × List Byte :=
  let header := [b₀, b₁, b₂, b₃, b₄, b₅, b₆, b₇]
  let address := ofBytes b₄ b₅ b₆ b₇
  let length := b₂.toNat + (b₃.toNat <<< 8)
  if maxLength < length then (s, [])
  else if b₀ = low 'r'.toNat then s.read bus header address length
  else if b₀ = low 'd'.toNat then
    s.copy bus header address (b₁.toNat + (b₂.toNat <<< 8) + (b₃.toNat <<< 16))
  else if b₀ = low 'w'.toNat then ({ s with phase := .body header address length }, [])
  else if b₀ = low 'c'.toNat then ({ s with phase := .closed }, [])
  else ({ s with phase := .failed }, [])

def tokenBuffer (attempt : List Byte) (buffer : ℕ → Word) : ℕ → Word :=
  fill (Function.update buffer 6 (buffer 6 &&& 0xFFFFFF00)) (decode (attempt.drop 8))

def confirmation : List Byte := List.replicate 32 (low '1'.toNat)

/-- A wrong token is answered with the expected one before the process ends. -/
def authenticate (expected attempt : List Byte) (s : Server δ) : Server δ × List Byte :=
  let buffer := tokenBuffer attempt s.buffer
  if attempt = expected then ({ s with phase := .header, buffer := buffer }, confirmation)
  else ({ s with phase := .failed, buffer := buffer }, expected)

end Server

structure Served (δ : Type*) where
  server : Server δ
  unread : List Byte
  sent : List Byte

/-- One receive with `MSG_WAITALL` and what follows it, up to the next receive; `none` while
the bytes are not all there, and after the end of the process. -/
def serve (s : Server δ) (input : List Byte) : Option (Served δ) :=
  match s.phase with
  | .token expected =>
    if input.length < 32 then none
    else
      let next := s.authenticate expected (input.take 32)
      some ⟨next.1, input.drop 32, next.2⟩
  | .header =>
    match input with
    | b₀ :: b₁ :: b₂ :: b₃ :: b₄ :: b₅ :: b₆ :: b₇ :: rest =>
      let next := s.command bus b₀ b₁ b₂ b₃ b₄ b₅ b₆ b₇
      some ⟨next.1, rest, next.2⟩
    | _ => none
  | .body header address length =>
    -- a receive of no bytes also waits for one, which stays unread
    if input.length < max 1 (4 * length) then none
    else
      let next := s.write bus header address length (input.take (4 * length))
      some ⟨next.1, input.drop (4 * length), next.2⟩
  | .closed => none
  | .failed => none

end Pypga.Remote.MonitorServer
