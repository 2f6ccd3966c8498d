/- GID: Pypga/Core/BuildResults
   generality: G
   digest: The builder and its directories, step by step, with exceptions after any step. -/

import Pypga.Foundation.Dictionary
import Pypga.Foundation.InterruptedRun
import Mathlib.Logic.Function.Basic

set_option autoImplicit false
set_option relaxedAutoImplicit false

namespace Pypga.Core.BuildResults

open Pypga.Foundation.Dictionary
open Pypga.Foundation.InterruptedRun
open Pypga.Foundation.LabelledRun (run)

inductive Content
  | opened | written
  deriving DecidableEq

/-- A file is there, and complete if that is required. -/
def Found : Content → Option Content → Prop
  | .opened, file => file ≠ none
  | .written, file => file = some .written

instance : ∀ least file, Decidable (Found least file)
  | .opened, file => inferInstanceAs (Decidable (file ≠ none))
  | .written, file => inferInstanceAs (Decidable (file = some .written))

theorem Found.ne_none {least : Content} {file : Option Content} (found : Found least file) :
    file ≠ none := by
  cases least with
  | opened => exact found
  | written =>
    intro missing
    cases missing.symm.trans found

structure Directory where
  entries : List (String × Content)
  unique : (entries.map Prod.fst).Nodup
  deriving DecidableEq

namespace Directory

def empty : Directory := ⟨[], List.nodup_nil⟩

def file (d : Directory) (name : String) : Option Content := d.entries.lookup name

def put (d : Directory) (name : String) (c : Content) : Directory :=
  ⟨setItem d.entries name c, nodup_set_item d.unique name c⟩

def remove (d : Directory) (name : String) : Directory :=
  ⟨delItem d.entries name, nodup_del_item d.unique name⟩

@[simp] theorem file_empty (name : String) : empty.file name = none := rfl

theorem file_put (d : Directory) (name : String) (c : Content) (x : String) :
    (d.put name c).file x = if x = name then some c else d.file x :=
  lookup_set_item d.entries name c x

theorem file_remove (d : Directory) (name x : String) :
    (d.remove name).file x = if x = name then none else d.file x :=
  lookup_del_item d.entries name x

end Directory

inductive Action
  | unlink (name : String)
  | rmdir
  | mkdir
  | read (name : String)
  | create (name : String)
  | fill (name : String)
  deriving DecidableEq

/-- The directory after an operation, `none` when the operation raises. -/
def Action.apply : Action → Option Directory → Option (Option Directory)
  | .unlink name, dir => do
    let d ← dir
    if (d.file name).isSome then some (d.remove name) else none
  | .rmdir, dir => do
    let d ← dir
    if d.entries = [] then some none else none
  -- `exist_ok=True`
  | .mkdir, dir => some (dir.getD .empty)
  | .read name, dir => do
    let d ← dir
    if (d.file name).isSome then some (some d) else none
  | .create name, dir => do
    let d ← dir
    some (d.put name .opened)
  | .fill name, dir => do
    let d ← dir
    some (d.put name .written)

structure Design where
  board : String
  name : String
  hash : String
  deriving DecidableEq

/-- `result_path` of a design, and `build_path`, which the versions of a design share. -/
inductive Path
  | result (design : Design)
  | build (board name : String)
  deriving DecidableEq

def Design.resultPath (design : Design) : Path := .result design

def Design.buildPath (design : Design) : Path := .build design.board design.name

theorem build_path_ne_result (d d' : Design) : d.buildPath ≠ d'.resultPath := by
  intro same
  cases same

abbrev Disk := Path → Option Directory

/-- A step of a build: an operation on a directory, or one that leaves the directories alone and
raises unless it succeeds. -/
inductive Operation
  | on (path : Path) (action : Action)
  | step (succeeds : Bool)
  deriving DecidableEq

def Operation.apply : Operation → Disk → Option Disk
  | .on path action, disk => (action.apply (disk path)).map (Function.update disk path)
  | .step succeeds, disk => if succeeds then some disk else none

/-- The order in which a directory is listed. -/
structure Scan where
  order : List String → List String
  perm : ∀ names, (order names).Perm names

/-- `shutil.rmtree` of a directory of files. -/
def rmtree (scan : Scan) (d : Directory) : List Action :=
  (scan.order (d.entries.map Prod.fst)).map .unlink ++ [.rmdir]

/-- What `empty_path` removes. -/
def clear (scan : Scan) : Option Directory → List Action
  | some d => rmtree scan d
  | none => []

def emptyPath (scan : Scan) (path : Path) (disk : Disk) : List Operation :=
  (clear scan (disk path)).map (.on path) ++ [.step true, .on path .mkdir]

/-- `shutil.copy`: the contents and then the permissions. -/
def copy (source target : Path) (name : String) : List Operation :=
  [.on source (.read name), .on target (.create name), .on target (.fill name), .step true]

/-- One call of `TopModule.run` or of `TopModule._build`. -/
inductive Call
  | run (autobuild forcebuild : Bool)
  | build
  deriving DecidableEq

/-- A call, what the toolchain does in it, and the number of steps after which an exception strikes;
a large number stands for none. -/
structure Attempt where
  call : Call
  design : Design
  scan : Scan
  produced : List String
  timingMet : Bool
  survived : ℕ

/-- `_build_results` of the builder of the board. -/
def stemlabResults : List String := ["bitstream.bin", "csr.csv"]

namespace Attempt

variable (buildResults : List String) (a : Attempt)

def copyResults (disk : Disk) : List Operation :=
  emptyPath a.scan a.design.resultPath disk ++
    buildResults.flatMap (copy a.design.buildPath a.design.resultPath)

/-- Platform, SoC and toolchain, the check of the timing, and the addresses of the registers. -/
def make : List Operation :=
  let path := a.design.buildPath
  .step true ::
    a.produced.flatMap (fun name => [.on path (.create name), .on path (.fill name)]) ++
    [.on path (.read "vivado.log"), .step a.timingMet,
      .on path (.create "csr.csv"), .on path (.fill "csr.csv")]

def build (disk : Disk) : List Operation :=
  emptyPath a.scan a.design.buildPath disk ++ a.make ++ a.copyResults buildResults disk

def resultExists (disk : Disk) (design : Design) : Bool := (disk design.resultPath).isSome

/-- The steps of a call; `run` without `autobuild` only raises. -/
def operations (disk : Disk) : List Operation :=
  match a.call with
  | .run autobuild forcebuild =>
    if forcebuild || !resultExists disk a.design then
      if autobuild || forcebuild then a.build buildResults disk else [.step false]
    else []
  | .build => a.build buildResults disk

def next (disk : Disk) : Disk :=
  interrupted Operation.apply a.survived (a.operations buildResults disk) disk

def steps (disk : Disk) : List Operation :=
  performed Operation.apply a.survived (a.operations buildResults disk) disk

end Attempt

end Pypga.Core.BuildResults
