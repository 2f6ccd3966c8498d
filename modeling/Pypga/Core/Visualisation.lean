/- GID: Pypga/Core/Visualisation
   generality: G
   digest: The drawing of a module: the nodes and edges that are collected from its statements. -/

import Mathlib.Data.Finset.Prod
import Pypga.Foundation.Dictionary

set_option autoImplicit false
set_option relaxedAutoImplicit false

namespace Pypga.Core.Visualisation

open Pypga.Foundation.Dictionary

/-- The values of migen over signals `σ`; there is no handler for those of another kind. -/
inductive Value (σ : Type)
  | signal (s : σ)
  | constant (value : ℤ)
  | operator (op : String) (operands : List (Value σ))
  | cat (l : List (Value σ))
  | slice (value : Value σ) (start stop : ℕ)
  | other (kind : String) (parts : List (Value σ))

mutual

inductive Statement (σ : Type)
  | assign (l r : Value σ)
  | ifElse (cond : Value σ) (t f : Block σ)
  | case (test : Value σ) (cases : Cases σ)
  | other (kind : String)

inductive Block (σ : Type)
  | nil
  | cons (s : Statement σ) (rest : Block σ)

/-- The key of the default is `none`. -/
inductive Cases (σ : Type)
  | nil
  | cons (key : Option ℤ) (body : Block σ) (rest : Cases σ)

end

structure Fragment (σ : Type) where
  sync : List (String × Block σ)
  comb : Block σ

/-- What is read of a signal; its name comes from the names on the stack where it was created. -/
structure Signals (σ : Type) where
  backtrace : σ → List String
  nbits : σ → ℕ
  signed : σ → Bool

structure Node where
  name : String
  nbits : ℕ
  signed : Bool
  deriving DecidableEq

inductive PyError
  | keyError
  | attributeError
  | indexError
  | valueError
  deriving DecidableEq

/-- `nodes` and `edges`. -/
abbrev Collected (σ : Type) := List (σ × Node) × Finset (σ × σ)

structure Drawing (σ : Type) where
  nodes : List (σ × Node)
  syncEdges : Finset (σ × σ)
  combEdges : Finset (σ × σ)

def commonPrefixes : List String :=
  ["automigenmodule", "custom_numberregister", "custom_fixedpointregister", "custom_boolregister"]

variable {σ : Type} [DecidableEq σ] (signals : Signals σ)

def getName (s : σ) : Except PyError String :=
  match (signals.backtrace s).reverse with
  | last :: pre :: _ =>
    .ok ((if commonPrefixes.any fun common => pre.endsWith common then "" else pre ++ ".") ++ last)
  | _ => .error .indexError

def handleSignal (s : σ) : Except PyError (Collected σ) := do
  let name ← getName signals s
  pure ([(s, ⟨name, signals.nbits s, signals.signed s⟩)], ∅)

/-- `nodes.update(n)` and `edges.update(e)`. -/
def join (a b : Collected σ) : Collected σ := (update a.1 b.1, a.2 ∪ b.2)

/-- What is not a signal has no `backtrace`. -/
def handleTarget : Value σ → Except PyError (σ × Collected σ)
  | .signal s => do
    let collected ← handleSignal signals s
    pure (s, collected)
  | _ => .error .attributeError

mutual

def handleValue : Value σ → Except PyError (Collected σ)
  | .signal s => handleSignal signals s
  | .constant _ => .ok ([], ∅)
  | .operator _ operands => handleValues operands ([], ∅)
  | .cat l => handleValues l ([], ∅)
  | .slice value _ _ => do
    let target ← handleTarget signals value
    pure target.2
  | .other _ _ => .error .keyError

def handleValues : List (Value σ) → Collected σ → Except PyError (Collected σ)
  | [], collected => .ok collected
  | v :: rest, collected => do
    let next ← handleValue v
    handleValues rest (join collected next)

end

def handleAssign (l r : Value σ) : Except PyError (Collected σ) := do
  let (target, left) ← handleTarget signals l
  let right ← handleValue signals r
  let (nodes, edges) := join (join ([], ∅) left) right
  pure (nodes, edges ∪ ((right.1.map Prod.fst).toFinset ×ˢ {target}))

mutual

/-- The condition of an `If` and the test of a `Case` are not looked at. -/
def handleStatement : Statement σ → Except PyError (Collected σ)
  | .assign l r => handleAssign signals l r
  | .ifElse _ t f => do
    let collected ← handleBlock t ([], ∅)
    handleBlock f collected
  | .case _ cases => handleCases cases ([], ∅)
  | .other _ => .error .keyError

def handleBlock : Block σ → Collected σ → Except PyError (Collected σ)
  | .nil, collected => .ok collected
  | .cons s rest, collected => do
    let next ← handleStatement s
    handleBlock rest (join collected next)

def handleCases : Cases σ → Collected σ → Except PyError (Collected σ)
  | .nil, collected => .ok collected
  | .cons _ body rest, collected => do
    let collected ← handleBlock body collected
    handleCases rest collected

end

/-- The part of `os.path.splitext` that is compared: from the last dot of the last component on,
where a dot follows another character than a dot. -/
def extension (fname : String) : String :=
  let component := (fname.toList.reverse.takeWhile (· ≠ '/')).reverse
  let body := component.dropWhile (· = '.')
  let suffix := (body.reverse.takeWhile (· ≠ '.')).reverse
  if '.' ∈ body then String.ofList ('.' :: suffix) else ""

def pass (sync comb : Block σ) (d : Drawing σ) : Except PyError (Drawing σ) := do
  let (nodes, syncEdges) ← handleBlock signals sync (d.nodes, d.syncEdges)
  let (nodes, combEdges) ← handleBlock signals comb (nodes, d.combEdges)
  pure ⟨nodes, syncEdges, combEdges⟩

/-- `vis` up to the drawing itself; both `module.sync` and `module.comb` lead to the statements of
the module, which are collected twice. -/
def vis (fname : String) (fragment : Fragment σ) : Except PyError (Drawing σ) :=
  if extension fname ≠ ".pdf" then .error .valueError
  else
    match fragment.sync.lookup "sys" with
    | none => .error .keyError
    | some sync => do
      let drawing ← pass signals sync fragment.comb ⟨[], ∅, ∅⟩
      pass signals sync fragment.comb drawing

end Pypga.Core.Visualisation
