/- GID: Pypga/Core/WholeResults
   generality: G
   digest: Which exceptions leave the result of a build half present. -/

import Pypga.Core.BuildResults

set_option autoImplicit false
set_option relaxedAutoImplicit false

namespace Pypga.Core.WholeResults

open Pypga.Foundation.InterruptedRun
open Pypga.Foundation.LabelledRun
open Pypga.Core.BuildResults

def leaves (name : String) : Action → Option Content
  | .create x => if x = name then some .opened else none
  | .fill x => if x = name then some .written else none
  | _ => none

def latest (name : String) (acts : List Action) : Option Content :=
  acts.reverse.findSome? (leaves name)

def Copying (acts : List Action) : Prop :=
  ∀ action ∈ acts, ∃ name, action = .create name ∨ action = .fill name

def Removing (acts : List Action) : Prop :=
  ∀ action ∈ acts, action = .rmdir ∨ ∃ name, action = .unlink name

def concerning (path : Path) : Operation → Option Action
  | .on p action => if p = path then some action else none
  | .step _ => none

def actionsAt (path : Path) (operations : List Operation) : List Action :=
  operations.filterMap (concerning path)

def Confined (paths : List Path) : List Operation → Prop
  | [] => True
  | .on path _ :: operations => path ∈ paths ∧ Confined paths operations
  | .step _ :: operations => Confined paths operations

def fileIn (dir : Option Directory) (name : String) : Option Content := dir.bind fun d => d.file name

section Files

variable (buildResults : List String) (least : Content)

def Present (dir : Option Directory) : Prop :=
  dir.isSome = true → ∀ f ∈ buildResults, Found least (fileIn dir f)

/-- No result is half present: the files of every design whose result exists are there. -/
def Whole (disk : Disk) : Prop :=
  ∀ design, Attempt.resultExists disk design = true →
    ∀ f ∈ buildResults, Found least (fileIn (disk design.resultPath) f)

/-- The operations on the result directory that took effect did not stop between the removal of
one of the files and that of the directory, nor between the creation of the directory and the end
of the last copy. -/
def Kept (acts : List Action) : Prop :=
  ((∃ f ∈ buildResults, Action.unlink f ∈ acts) → Action.rmdir ∈ acts) ∧
    (Action.mkdir ∈ acts → ∀ f ∈ buildResults, Found least (latest f acts))

instance (acts : List Action) : Decidable (Kept buildResults least acts) :=
  inferInstanceAs (Decidable (_ ∧ _))

end Files

section Actions

theorem latest_append (name : String) (first second : List Action) :
    latest name (first ++ second) = (latest name second).or (latest name first) := by
  rw [latest, List.reverse_append, List.findSome?_append]
  rfl

private theorem latest_cons (name : String) (action : Action) (acts : List Action) :
    latest name (action :: acts) = (latest name acts).or (leaves name action) := by
  rw [← List.singleton_append, latest_append]
  congr 1
  rw [latest, List.reverse_singleton, List.findSome?_singleton]

private theorem run_unlinks {names : List String} {d : Directory} {dir : Option Directory}
    (path : run Action.apply (names.map .unlink) (some d) = some dir) :
    ∃ d', dir = some d' ∧ ∀ f, d'.file f = if f ∈ names then none else d.file f := by
  induction names generalizing d with
  | nil => exact ⟨d, by simpa using path.symm, fun f => by simp⟩
  | cons name names ih =>
    obtain ⟨m, first, rest⟩ := run_cons.mp path
    obtain rfl : some (d.remove name) = m := by
      simp only [Action.apply, Option.bind_eq_bind, Option.bind_some] at first
      split at first
      · exact Option.some.inj first
      · cases first
    obtain ⟨d', at_end, files⟩ := ih rest
    refine ⟨d', at_end, fun f => ?_⟩
    rw [files, d.file_remove]
    by_cases removed : f = name <;> by_cases later : f ∈ names <;> simp [removed, later]

theorem run_copies {acts : List Action} {d : Directory} {dir : Option Directory}
    (copying : Copying acts) (path : run Action.apply acts (some d) = some dir) :
    ∃ d', dir = some d' ∧ ∀ f, d'.file f = (latest f acts).or (d.file f) := by
  induction acts generalizing d with
  | nil => exact ⟨d, by simpa using path.symm, fun f => rfl⟩
  | cons action acts ih =>
    obtain ⟨m, first, rest⟩ := run_cons.mp path
    obtain ⟨name, kind⟩ := copying action List.mem_cons_self
    obtain ⟨c, rfl, put⟩ : ∃ c, some (d.put name c) = m ∧
        ∀ f, leaves f action = if f = name then some c else none := by
      rcases kind with rfl | rfl
      · exact ⟨.opened, Option.some.inj first, fun f => by simp [leaves, eq_comm]⟩
      · exact ⟨.written, Option.some.inj first, fun f => by simp [leaves, eq_comm]⟩
    obtain ⟨d', at_end, files⟩ := ih (fun a inside => copying a (List.mem_cons_of_mem _ inside)) rest
    refine ⟨d', at_end, fun f => ?_⟩
    rw [files, d.file_put, latest_cons, Option.or_assoc, put]
    split_ifs <;> rfl

private theorem latest_of_removal (name : String) {acts : List Action} (removal : Removing acts) :
    latest name acts = none := by
  apply List.findSome?_eq_none_iff.mpr
  intro action inside
  rcases removal action (List.mem_reverse.mp inside) with rfl | ⟨f, rfl⟩
  · rfl
  · rfl

end Actions

section Refill

variable {buildResults : List String} {least : Content} {dir dir' : Option Directory}

private theorem present_removing {names : List String} {d : Directory}
    (present : Present buildResults least (some d))
    (path : run Action.apply (names.map .unlink) (some d) = some dir') :
    Present buildResults least dir' ↔ Kept buildResults least (names.map .unlink) := by
  obtain ⟨d', rfl, files⟩ := run_unlinks path
  have none_made : Action.mkdir ∉ names.map Action.unlink := by simp
  have none_gone : Action.rmdir ∉ names.map Action.unlink := by simp
  constructor
  · intro still
    refine ⟨?_, fun made => absurd made none_made⟩
    rintro ⟨f, listed, removed⟩
    obtain ⟨name, inside, same⟩ := List.mem_map.mp removed
    obtain rfl : name = f := Action.unlink.inj same
    have missing : fileIn (some d') name = none := by
      rw [fileIn, Option.bind_some, files, if_pos inside]
    exact absurd missing (still rfl name listed).ne_none
  · rintro ⟨removed, -⟩ - f listed
    have untouched : f ∉ names := by
      intro inside
      exact none_gone (removed ⟨f, listed, List.mem_map_of_mem inside⟩)
    rw [fileIn, Option.bind_some, files, if_neg untouched]
    exact present rfl f listed

/-- Once the directory has been removed, or when there was none, a new one needs all its files. -/
private theorem present_refilling (before : List Action) {after copies : List Action}
    (removal : Removing before)
    (gone : (∃ f, Action.unlink f ∈ before) → Action.rmdir ∈ before)
    (copying : Copying copies)
    (start : after <+: .mkdir :: copies) (path : run Action.apply after none = some dir') :
    Present buildResults least dir' ↔ Kept buildResults least (before ++ after) := by
  have no_dir : Action.mkdir ∉ before := by
    intro inside
    rcases removal _ inside with other | ⟨f, other⟩
    · cases other
    · cases other
  rcases List.prefix_cons_iff.mp start with rfl | ⟨copied, rfl, part⟩
  · obtain rfl : none = dir' := by simpa using path
    rw [List.append_nil]
    refine iff_of_true (fun exists_ => by cases exists_) ⟨?_, fun made => absurd made no_dir⟩
    rintro ⟨f, -, removed⟩
    exact gone ⟨f, removed⟩
  · have copying' : Copying copied := fun action inside => copying action (part.subset inside)
    obtain ⟨m, first, rest⟩ := run_cons.mp path
    obtain rfl : some Directory.empty = m := Option.some.inj first
    obtain ⟨d', rfl, files⟩ := run_copies copying' rest
    have all (f : String) : fileIn (some d') f = latest f (before ++ .mkdir :: copied) := by
      have quiet : leaves f .mkdir = none := rfl
      rw [fileIn, Option.bind_some, files, Directory.file_empty, latest_append, latest_cons,
        latest_of_removal f removal, quiet, Option.or_none, Option.or_none]
    constructor
    · intro present
      refine ⟨?_, ?_⟩
      · rintro ⟨f, -, removed⟩
        rcases List.mem_append.mp removed with early | late
        · exact List.mem_append_left _ (gone ⟨f, early⟩)
        · rcases List.mem_cons.mp late with other | later
          · cases other
          · obtain ⟨name, other | other⟩ := copying' _ later
            · cases other
            · cases other
      · intro _ f listed
        rw [← all]
        exact present rfl f listed
    · rintro ⟨-, copied⟩ - f listed
      rw [all]
      exact copied (by simp) f listed

private theorem present_iff_kept (scan : Scan) {acts copies : List Action}
    (copying : Copying copies)
    (present : Present buildResults least dir) (start : acts <+: clear scan dir ++ .mkdir :: copies)
    (path : run Action.apply acts dir = some dir') :
    Present buildResults least dir' ↔ Kept buildResults least acts := by
  cases dir with
  | none => exact present_refilling [] (by simp [Removing]) (by simp) copying start path
  | some d =>
    rw [clear, rmtree, List.append_assoc] at start
    rcases prefix_append_cases start with removing | ⟨after, rfl, last⟩
    · obtain ⟨names, -, rfl⟩ := List.prefix_map_iff.mp removing
      exact present_removing present path
    · rcases List.prefix_cons_iff.mp last with rfl | ⟨refill, rfl, part⟩
      · rw [List.append_nil] at path ⊢
        exact present_removing present path
      · obtain ⟨m, -, rest⟩ := run_append.mp path
        obtain ⟨none_left, removed, rest⟩ := run_cons.mp rest
        obtain rfl : none = none_left := by
          cases m with
          | none => cases removed
          | some d =>
            simp only [Action.apply, Option.bind_eq_bind, Option.bind_some] at removed
            split at removed
            · exact Option.some.inj removed
            · cases removed
        rw [List.append_cons]
        refine present_refilling _ ?_ ?_ copying part rest
        · intro action inside
          rcases List.mem_append.mp inside with file | directory
          · obtain ⟨f, -, rfl⟩ := List.mem_map.mp file
            exact .inr ⟨f, rfl⟩
          · exact .inl (List.mem_singleton.mp directory)
        · rintro -
          simp

end Refill

section Attempts

variable (buildResults : List String) (least : Content)

/-- The operations of `copy_results` in a new result directory. -/
def copies : List Action := buildResults.flatMap fun f => [.create f, .fill f]

theorem copies_copying : Copying (copies buildResults) := by
  intro action inside
  obtain ⟨name, -, part⟩ := List.mem_flatMap.mp inside
  exact ⟨name, by simpa using part⟩

private theorem actions_append (path : Path) (first second : List Operation) :
    actionsAt path (first ++ second) = actionsAt path first ++ actionsAt path second :=
  List.filterMap_append

private theorem actions_on (path : Path) (acts : List Action) :
    actionsAt path (acts.map (.on path)) = acts := by
  induction acts with
  | nil => rfl
  | cons action acts ih =>
    have here : concerning path (.on path action) = some action := if_pos rfl
    rw [List.map_cons, actionsAt, List.filterMap_cons_some here]
    exact congrArg _ ih

private theorem actions_elsewhere {paths : List Path} {path : Path} (elsewhere : path ∉ paths)
    {operations : List Operation} (confined : Confined paths operations) :
    actionsAt path operations = [] := by
  induction operations with
  | nil => rfl
  | cons o operations ih =>
    cases o with
    | on p action =>
      have other : concerning path (.on p action) = none := by
        apply if_neg
        rintro rfl
        exact elsewhere confined.1
      rw [actionsAt, List.filterMap_cons_none other]
      exact ih confined.2
    | step succeeds => exact ih confined

private theorem confined_append {paths : List Path} {first second : List Operation}
    (early : Confined paths first) (late : Confined paths second) :
    Confined paths (first ++ second) := by
  induction first with
  | nil => exact late
  | cons o first ih =>
    cases o with
    | on path action => exact ⟨early.1, ih early.2⟩
    | step succeeds => exact ih early

private theorem confined_flat_map {paths : List Path} (f : String → List Operation)
    (each : ∀ name, Confined paths (f name)) (names : List String) : Confined paths (names.flatMap f) := by
  induction names with
  | nil => trivial
  | cons name names ih => exact confined_append (each name) ih

private theorem confined_map_on {paths : List Path} {path : Path} (known : path ∈ paths)
    (acts : List Action) :
    Confined paths (acts.map (.on path)) := by
  induction acts with
  | nil => trivial
  | cons action acts ih => exact ⟨known, ih⟩

private theorem confined_empty_path {paths : List Path} {path : Path} (known : path ∈ paths)
    (scan : Scan)
    (disk : Disk) : Confined paths (emptyPath scan path disk) :=
  confined_append (confined_map_on known _) ⟨known, trivial⟩

private theorem actions_empty_path (scan : Scan) (path : Path) (disk : Disk) :
    actionsAt path (emptyPath scan path disk) = clear scan (disk path) ++ [.mkdir] := by
  have here : concerning path (.on path .mkdir) = some .mkdir := if_pos rfl
  rw [emptyPath, actions_append, actions_on]
  congr 1
  rw [actionsAt, List.filterMap_cons_none rfl, List.filterMap_cons_some here, List.filterMap_nil]

private theorem actions_copies {source target : Path} (apart : source ≠ target) :
    actionsAt target (buildResults.flatMap (copy source target)) = copies buildResults := by
  induction buildResults with
  | nil => rfl
  | cons name names ih =>
    rw [List.flatMap_cons, actions_append, ih]
    simp [actionsAt, copy, concerning, apart, copies]

variable (a : Attempt) (disk : Disk)

private theorem confined_make {paths : List Path} (known : a.design.buildPath ∈ paths) :
    Confined paths a.make := by
  have file (name : String) : Confined paths
      [.on a.design.buildPath (.create name), .on a.design.buildPath (.fill name)] :=
    ⟨known, known, trivial⟩
  apply confined_append
  · exact confined_flat_map _ file a.produced
  · exact ⟨known, known, known, trivial⟩

private theorem confined_build {paths : List Path} (build : a.design.buildPath ∈ paths)
    (result : a.design.resultPath ∈ paths) : Confined paths (a.build buildResults disk) := by
  have file (name : String) :
      Confined paths (copy a.design.buildPath a.design.resultPath name) :=
    ⟨build, result, result, trivial⟩
  apply confined_append
  · exact confined_append (confined_empty_path build a.scan disk) (confined_make a build)
  · apply confined_append
    · exact confined_empty_path result a.scan disk
    · exact confined_flat_map _ file buildResults

theorem actions_build : actionsAt a.design.resultPath (a.build buildResults disk) =
    clear a.scan (disk a.design.resultPath) ++ .mkdir :: copies buildResults := by
  have apart := build_path_ne_result a.design a.design
  have outside : a.design.resultPath ∉ [a.design.buildPath] := by
    rw [List.mem_singleton]
    exact apart.symm
  rw [Attempt.build, actions_append, actions_append,
    actions_elsewhere outside (confined_empty_path (List.mem_singleton_self _) a.scan disk),
    actions_elsewhere outside (confined_make a (List.mem_singleton_self _)), Attempt.copyResults, actions_append,
    actions_empty_path, actions_copies buildResults apart, List.nil_append, List.append_assoc]
  rfl

private theorem actions_build_other {design : Design} (other : design ≠ a.design) :
    actionsAt design.resultPath (a.build buildResults disk) = [] := by
  have outside : design.resultPath ∉ [a.design.buildPath, a.design.resultPath] := by
    simpa [Design.resultPath, Design.buildPath] using other
  exact actions_elsewhere outside (confined_build buildResults a disk (by simp) (by simp))

private theorem operations_cases : a.operations buildResults disk = a.build buildResults disk ∨
    ∀ path, actionsAt path (a.operations buildResults disk) = [] := by
  unfold Attempt.operations
  split
  · split_ifs
    · exact .inl rfl
    · exact .inr fun path => rfl
    · exact .inr fun path => rfl
  · exact .inl rfl

private theorem apply_concerned {path : Path} {o : Operation} {action : Action} {disk next : Disk}
    (concerned : concerning path o = some action) (moved : o.apply disk = some next) :
    action.apply (disk path) = some (next path) := by
  cases o with
  | on p acted =>
    simp only [concerning] at concerned
    split at concerned
    · rename_i same
      subst same
      obtain rfl := Option.some.inj concerned
      obtain ⟨dir, changed, rfl⟩ := Option.map_eq_some_iff.mp moved
      rw [changed, Function.update_self]
    · cases concerned
  | step succeeds => cases concerned

private theorem apply_unconcerned {path : Path} {o : Operation} {disk next : Disk}
    (elsewhere : concerning path o = none) (moved : o.apply disk = some next) :
    next path = disk path := by
  cases o with
  | on p acted =>
    simp only [concerning] at elsewhere
    split at elsewhere
    · cases elsewhere
    · rename_i other
      obtain ⟨dir, -, rfl⟩ := Option.map_eq_some_iff.mp moved
      exact Function.update_of_ne (Ne.symm other) dir disk
  | step succeeds =>
    simp only [Operation.apply] at moved
    split at moved
    · obtain rfl := Option.some.inj moved
      rfl
    · cases moved

/-- The steps of an attempt act on every directory by themselves. -/
theorem run_directory (path : Path) :
    run Action.apply (actionsAt path (a.steps buildResults disk)) (disk path) =
      some (a.next buildResults disk path) :=
  run_part Operation.apply (fun disk : Disk => disk path) (concerning path)
    (fun _ _ _ _ concerned moved => apply_concerned concerned moved)
    (fun _ _ _ elsewhere moved => apply_unconcerned elsewhere moved)
    (run_performed Operation.apply a.survived _ disk)

private theorem steps_from_start : a.steps buildResults disk <+: a.operations buildResults disk :=
  performed_prefix Operation.apply a.survived _ disk

/-- The exceptions of an attempt keep the result of its design from being half present. -/
def Keeps : Prop :=
  Kept buildResults least (actionsAt a.design.resultPath (a.steps buildResults disk))

private theorem whole_iff_present :
    Whole buildResults least disk ↔ ∀ design : Design, Present buildResults least (disk design.resultPath) :=
  Iff.rfl

private theorem next_other {design : Design} (other : design ≠ a.design) :
    a.next buildResults disk design.resultPath = disk design.resultPath := by
  have quiet : actionsAt design.resultPath (a.operations buildResults disk) = [] := by
    rcases operations_cases buildResults a disk with build | nothing
    · rw [build]
      exact actions_build_other buildResults a disk other
    · exact nothing _
  have part := (steps_from_start buildResults a disk).filterMap (concerning design.resultPath)
  have path := run_directory buildResults a disk design.resultPath
  have none_done : actionsAt design.resultPath (a.steps buildResults disk) = [] :=
    List.prefix_nil.mp (quiet ▸ part)
  rw [none_done] at path
  exact (Option.some.inj path).symm

private theorem next_own (present : Present buildResults least (disk a.design.resultPath)) :
    Present buildResults least (a.next buildResults disk a.design.resultPath) ↔
      Keeps buildResults least a disk := by
  have part := (steps_from_start buildResults a disk).filterMap (concerning a.design.resultPath)
  have path := run_directory buildResults a disk a.design.resultPath
  rcases operations_cases buildResults a disk with build | nothing
  · rw [build] at part
    exact present_iff_kept a.scan (copies_copying buildResults) present
      (actions_build buildResults a disk ▸ part) path
  · have none_done : actionsAt a.design.resultPath (a.steps buildResults disk) = [] :=
      List.prefix_nil.mp (nothing a.design.resultPath ▸ part)
    rw [none_done] at path
    rw [Keeps, none_done, ← Option.some.inj path]
    refine iff_of_true present ⟨?_, ?_⟩
    · rintro ⟨f, -, removed⟩
      cases removed
    · intro made
      cases made

private theorem whole_next (whole : Whole buildResults least disk) :
    Whole buildResults least (a.next buildResults disk) ↔ Keeps buildResults least a disk := by
  rw [whole_iff_present] at whole ⊢
  rw [← next_own buildResults least a disk (whole a.design)]
  constructor
  · intro all
    exact all a.design
  · intro own design
    by_cases same : design = a.design
    · rw [same]
      exact own
    · rw [next_other buildResults a disk same]
      exact whole design

end Attempts

def step (buildResults : List String) (a : Attempt) (disk : Disk) : Option Disk :=
  some (a.next buildResults disk)

/-- No result is half present after any number of attempts, exactly if none of the exceptions on the
way came between the removal of a file and that of its result directory, or between the creation of
the directory and the last copy into it. This holds whether a file counts once it has been opened or
only when it is complete. -/
theorem results_whole_iff (buildResults : List String) (least : Content) (attempts : List Attempt)
    (disk : Disk) (start : Whole buildResults least disk) :
    (∀ past more next, attempts = past ++ more → run (step buildResults) past disk = some next →
        Whole buildResults least next) ↔
      Along (step buildResults) (Keeps buildResults least) attempts disk := by
  refine (reached_iff_along (Whole buildResults least) ?_ ?_).trans (and_iff_right start)
  · intro a disk next whole moved
    obtain rfl := Option.some.inj moved
    exact whole_next buildResults least a disk whole
  · intro a disk _ stuck
    cases stuck

def firstRun (survived : ℕ) : Attempt :=
  ⟨.run true false, ⟨"stemlab125_14", "Top", "0"⟩, ⟨id, fun _ => .refl _⟩, ["vivado.log", "bitstream.bin"],
    true, survived⟩

theorem results_whole_undisturbed :
    Attempt.resultExists ((firstRun 100).next stemlabResults fun _ => none) (firstRun 100).design = true ∧
      Whole stemlabResults .written ((firstRun 100).next stemlabResults fun _ => none) := by
  refine ⟨by decide, ?_⟩
  have along : Along (step stemlabResults) (Keeps stemlabResults .written) [firstRun 100] fun _ => none := by
    refine ⟨?_, fun _ _ => trivial⟩
    show Kept _ _ _
    decide
  have start : Whole stemlabResults .written fun _ => none := by
    intro design absent
    cases absent
  exact (results_whole_iff stemlabResults .written [firstRun 100] (fun _ => none) start).mpr along
    [firstRun 100] [] _ rfl rfl

/-- The first copy raises: the directory is there without a file, and the next run does nothing. -/
theorem results_half_present :
    let disk := (firstRun 13).next stemlabResults fun _ => none
    Whole stemlabResults .opened (fun _ => none) ∧ ¬ Whole stemlabResults .opened disk ∧
      (firstRun 13).operations stemlabResults disk = [] := by
  intro disk
  refine ⟨?_, ?_, by decide⟩
  · intro design absent
    cases absent
  · intro whole
    have found := whole (firstRun 13).design (by decide) "csr.csv" (by decide)
    exact absurd found (by decide)

end Pypga.Core.WholeResults
