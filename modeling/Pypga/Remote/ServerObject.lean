/- GID: Pypga/Remote/ServerObject
   generality: G
   digest: The Python object that starts and stops the server on the board through a shell. -/

import Mathlib.Data.List.Infix
import Pypga.Foundation.Dialogue

set_option autoImplicit false
set_option relaxedAutoImplicit false

namespace Pypga.Remote.ServerObject

open Pypga.Foundation.Dialogue

abbrev Token := String

inductive Command
  | interrupt
  | killall
  | mkdir
  | cd
  | flush
  | age
  | flash
  | clean
  | chmod
  | launch (port : ℕ) (token : Token)
  deriving DecidableEq

def destpath : String := "/root/pypga"

def bitstreamPath : String := destpath ++ "/bitstream.bin"

def serverPath : String := destpath ++ "/server"

def Command.text : Command → String
  | .interrupt => "\x03"
  | .killall => "killall server"
  | .mkdir => "mkdir " ++ destpath
  | .cd => "cd " ++ destpath
  | .flush => ""
  | .age => "echo $(($(date +%s) - $(date +%s -r \"" ++ bitstreamPath ++ "\")))"
  | .flash => "cat " ++ bitstreamPath ++ " > //dev//xdevcfg"
  | .clean => "rm -f " ++ bitstreamPath
  | .chmod => "chmod 755 " ++ serverPath
  | .launch port token => serverPath ++ " " ++ toString port ++ " " ++ token

inductive Pause
  | flashing
  | delay
  deriving DecidableEq

inductive Action
  | run (command : Command)
  | put (src dst : String)
  | sleep (pause : Pause)
  | uuid4
  deriving DecidableEq

abbrev Reply : Action → Type
  | .run _ => String
  | .put _ _ => Bool
  | .sleep _ => Unit
  | .uuid4 => Token

inductive PyError
  | upload
  | runtimeError
  deriving DecidableEq

/-- What a method returns or raises, and `self.token` after it. -/
abbrev Outcome (α : Type) := Except PyError α × Option Token

/-- `"sh" in result`. -/
def mentionsShell (result : String) : Bool := decide (['s', 'h'] <:+: result.toList)

def digitsFrom : List Char → ℕ → Option ℕ
  | [], n => some n
  | '_' :: c :: rest, n => if c.isDigit then digitsFrom rest (10 * n + (c.toNat - 48)) else none
  | c :: rest, n => if c.isDigit then digitsFrom rest (10 * n + (c.toNat - 48)) else none

def digits : List Char → Option ℕ
  | [] => none
  | c :: rest => if c.isDigit then digitsFrom rest (c.toNat - 48) else none

/-- `int(line.strip())`. -/
def parseInt (line : List Char) : Option ℤ :=
  let stripped := ((line.dropWhile Char.isWhitespace).reverse.dropWhile Char.isWhitespace).reverse
  match stripped with
  | '-' :: rest => (digits rest).map fun n => -(n : ℤ)
  | '+' :: rest => (digits rest).map fun n => (n : ℤ)
  | rest => (digits rest).map fun n => (n : ℤ)

/-- `split("\n")`, from the end of the text on. -/
def splitLines (text : List Char) : List (List Char) :=
  text.foldr (fun c lines => if c = '\n' then [] :: lines
    else (c :: lines.headD []) :: lines.tail) [[]]

/-- The first line that is a number. -/
def age (result : String) : Option ℤ := (splitLines result.toList).findSome? parseInt

/-- `self.token` is `None` afterwards. -/
def stop : Program Reply (Option Token) := do
  let _ ← perform (.run .interrupt)
  let _ ← perform (.run .killall)
  pure none

def bitstreamFlashedRecently : Program Reply Bool := do
  let _ ← perform (.run .flush)
  let result ← perform (.run .age)
  match age result with
  | none => pure false
  | some age => pure (decide (age ≤ 10))

/-- The upload may raise. -/
def flashBitstream (filename : String) (token : Option Token) : Program Reply (Outcome Unit) := do
  let uploaded ← perform (.put filename bitstreamPath)
  if uploaded then
    let token ← stop
    let _ ← perform (.run .flash)
    let _ ← perform (.run .clean)
    pure (.ok (), token)
  else pure (.error .upload, token)

/-- The loop over the binaries: an upload error is only logged, and every attempt has a new token. -/
def startAny (port : ℕ) : List String → Option Token → Program Reply (Outcome Token)
  | [], token => pure (.error .runtimeError, token)
  | serverfile :: rest, _ => do
    let _ ← perform (.put serverfile serverPath)
    let _ ← perform (.run .chmod)
    let token ← perform .uuid4
    let result ← perform (.run (.launch port token))
    let _ ← perform (.sleep .delay)
    let more ← perform (.run .flush)
    if mentionsShell (result ++ more) then do
      let stopped ← stop
      startAny port rest stopped
    else pure (.ok token, some token)

def start (srcfiles : List String) (port : ℕ) (token : Option Token) : Program Reply (Outcome Token) := do
  let recently ← bitstreamFlashedRecently
  if recently then
    let _ ← perform (.sleep .flashing)
    startAny port srcfiles token
  else startAny port srcfiles token

/-- `if start: self.start()`. -/
def startIf (starting : Bool) (srcfiles : List String) (port : ℕ) (token : Option Token) :
    Program Reply (Outcome Unit) :=
  if starting then do
    let started ← start srcfiles port token
    pure (started.1.map fun _ => (), started.2)
  else pure (.ok (), token)

/-- `__init__` from the first stop on; `starting` is its argument `start`. -/
def construct (srcfiles : List String) (port : ℕ) (bitstreamfile : Option String) (starting : Bool) :
    Program Reply (Outcome Unit) := do
  let token ← stop
  let _ ← perform (.run .mkdir)
  let _ ← perform (.run .cd)
  match bitstreamfile with
  | none => startIf starting srcfiles port token
  | some filename => do
    let flashed ← flashBitstream filename token
    match flashed with
    | (.error e, token) => pure (.error e, token)
    | (.ok _, token) => startIf starting srcfiles port token

/-- A token as `uuid4` draws it: the thirteenth letter is the version. -/
structure Drawn (token : Token) : Prop where
  long : token.toList.length = 32
  hex : ∀ c ∈ token.toList, c ∈ "0123456789abcdef".toList
  version : token.toList[12]? = some '4'

/-- The board behind the shell: the servers that listen, by their ports, the binary at their path,
what the shell has not yet shown, and whether there is a bitstream file. -/
structure Board (σ : Type) where
  answer : (k : Action) → σ → Reply k × σ
  listening : σ → ℕ → Option Token
  installed : σ → Option String
  unread : σ → String
  bitstream : σ → Bool
  /-- A binary that is of the version of the operating system. -/
  works : String → Bool

namespace Board

variable {σ : Type} (b : Board σ)

def after (k : Action) (s : σ) : σ := (b.answer k s).2

def Executes (s : σ) : Prop := ∃ file, b.installed s = some file ∧ b.works file = true

/-- What a board with a shell does. A line is shown before what the command prints; the shell says
so when it cannot execute a command, and a server that cannot have its port ends. -/
structure Lawful : Prop where
  interrupt : ∀ s port, b.listening (b.after (.run .interrupt) s) port = b.listening s port ∨
    b.listening (b.after (.run .interrupt) s) port = none
  killall : ∀ s port, b.listening (b.after (.run .killall) s) port = none
  launch : ∀ s port token, b.listening s port = none → b.Executes s →
    b.listening (b.after (.run (.launch port token)) s) port = some token
  launch_fails : ∀ s port token, ¬ b.Executes s →
    b.listening (b.after (.run (.launch port token)) s) port = b.listening s port
  listening : ∀ k s port, (∀ c, k = .run c → c ≠ .interrupt ∧ c ≠ .killall ∧ ∀ p t, c ≠ .launch p t) →
    b.listening (b.after k s) port = b.listening s port
  transcript : ∀ s port token, ∃ message,
    (b.answer (.run (.launch port token)) s).1 ++ b.unread (b.after (.run (.launch port token)) s) =
      (Command.launch port token).text ++ "\x0d\n" ++ message ∧
    (mentionsShell message = true ↔ ¬ b.Executes s)
  flush : ∀ s, (b.answer (.run .flush) s).1 = b.unread s
  sleep : ∀ s pause, b.unread (b.after (.sleep pause) s) = b.unread s
  upload : ∀ s file, (b.answer (.put file serverPath) s).1 = true →
    b.installed (b.after (.put file serverPath) s) = some file
  installed : ∀ k s, (∀ file, k ≠ .put file serverPath) → b.installed (b.after k s) = b.installed s
  drawn : ∀ s, Drawn (b.answer .uuid4 s).1
  clean : ∀ s, b.bitstream (b.after (.run .clean) s) = false
  bitstream : ∀ k s, (∀ file, k ≠ .put file bitstreamPath) → b.bitstream s = false →
    b.bitstream (b.after k s) = false
  age : ∀ s, b.bitstream s = false → age (b.answer (.run .age) s).1 = none

end Board

end Pypga.Remote.ServerObject
