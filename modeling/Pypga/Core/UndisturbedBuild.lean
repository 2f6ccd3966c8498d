/- GID: Pypga/Core/UndisturbedBuild
   generality: G
   digest: A build that no exception disturbs leaves a complete result. -/

import Pypga.Core.WholeResults

set_option autoImplicit false
set_option relaxedAutoImplicit false

namespace Pypga.Core.UndisturbedBuild

open Pypga.Foundation.Dictionary
open Pypga.Foundation.InterruptedRun
open Pypga.Foundation.LabelledRun
open Pypga.Core.BuildResults
open Pypga.Core.WholeResults

private theorem run_on (path : Path) (acts : List Action) (disk : Disk) :
    run Operation.apply (acts.map (.on path)) disk =
      (run Action.apply acts (disk path)).map (Function.update disk path) := by
  induction acts generalizing disk with
  | nil => simp
  | cons action acts ih =>
    rw [List.map_cons, run, run, Operation.apply]
    cases action.apply (disk path) with
    | none => rfl
    | some dir =>
      simp only [Option.map_some, Option.bind_some, ih, Function.update_self]
      cases run Action.apply acts dir with
      | none => rfl
      | some last => simp only [Option.map_some, Function.update_idem]

private theorem run_unlinks_all {names : List String} {d : Directory}
    (listed : names.Perm (d.entries.map Prod.fst)) :
    ∃ d', run Action.apply (names.map .unlink) (some d) = some (some d') ∧ d'.entries = [] := by
  induction names generalizing d with
  | nil =>
    refine ⟨d, rfl, ?_⟩
    exact List.map_eq_nil_iff.mp (List.nil_perm.mp listed)
  | cons name names ih =>
    obtain ⟨fresh, -⟩ := List.nodup_cons.mp (listed.nodup_iff.mpr d.unique)
    have known : name ∈ d.entries.map Prod.fst := listed.subset List.mem_cons_self
    have rest : names.Perm ((d.remove name).entries.map Prod.fst) := by
      have others := listed.filter fun x => x ≠ name
      rw [← keys_del_item, List.filter_cons_of_neg (by simp)] at others
      rw [List.filter_eq_self.mpr] at others
      · exact others
      · intro x inside
        simp only [ne_eq, decide_eq_true_eq]
        rintro rfl
        exact fresh inside
    obtain ⟨d', path, nothing⟩ := ih rest
    refine ⟨d', run_cons.mpr ⟨some (d.remove name), ?_, path⟩, nothing⟩
    obtain ⟨c, found⟩ := mem_keys_iff.mp known
    have there : (d.file name).isSome = true := by rw [Directory.file, found]; rfl
    simp only [Action.apply, Option.bind_eq_bind, Option.bind_some, if_pos there]

private theorem run_clear (scan : Scan) (dir : Option Directory) :
    run Action.apply (clear scan dir) dir = some none := by
  cases dir with
  | none => rfl
  | some d =>
    obtain ⟨d', path, nothing⟩ := run_unlinks_all (scan.perm (d.entries.map Prod.fst))
    refine run_append.mpr ⟨some d', path, ?_⟩
    simp [run, Action.apply, nothing]

private theorem run_empty_path (scan : Scan) (path : Path) (disk : Disk) :
    run Operation.apply (emptyPath scan path disk) disk =
      some (Function.update disk path (some .empty)) := by
  refine run_append.mpr ⟨Function.update disk path none, ?_, ?_⟩
  · rw [run_on, run_clear]
    rfl
  · simp [run, Operation.apply, Action.apply]

private theorem run_copying {acts : List Action} (copying : Copying acts) (d : Directory) :
    ∃ d', run Action.apply acts (some d) = some (some d') := by
  induction acts generalizing d with
  | nil => exact ⟨d, rfl⟩
  | cons action acts ih =>
    have rest := ih fun a inside => copying a (List.mem_cons_of_mem _ inside)
    obtain ⟨name, rfl | rfl⟩ := copying action List.mem_cons_self
    · exact rest (d.put name .opened)
    · exact rest (d.put name .written)

private theorem latest_copies (name : String) (names : List String) :
    latest name (copies names) = if name ∈ names then some .written else none := by
  induction names with
  | nil => rfl
  | cons first names ih =>
    have split : copies (first :: names) = [.create first, .fill first] ++ copies names := rfl
    rw [split, latest_append, ih]
    by_cases later : name ∈ names
    · simp [later]
    · by_cases here : first = name
      · simp [later, here, latest, leaves]
      · simp [later, here, Ne.symm here, latest, leaves]

private theorem run_copies_complete (names : List String) (d : Directory) :
    ∃ d', run Action.apply (copies names) (some d) = some (some d') ∧
      ∀ f, d'.file f = if f ∈ names then some .written else d.file f := by
  obtain ⟨d', path⟩ := run_copying (copies_copying names) d
  obtain ⟨same, at_end, files⟩ := run_copies (copies_copying names) path
  obtain rfl := Option.some.inj at_end
  refine ⟨d', path, fun f => ?_⟩
  rw [files, latest_copies]
  split_ifs
  · rfl
  · rfl

variable (results : List String) (a : Attempt)

private theorem run_make (met : a.timingMet = true) (log : "vivado.log" ∈ a.produced) {disk : Disk}
    (emptied : disk a.design.buildPath = some .empty) :
    ∃ d, run Operation.apply a.make disk = some (Function.update disk a.design.buildPath (some d)) ∧
      ∀ f, f = "csr.csv" ∨ f ∈ a.produced → (d.file f).isSome = true := by
  obtain ⟨made, path, files⟩ := run_copies_complete a.produced .empty
  have produced : (a.produced.flatMap fun name => [Operation.on a.design.buildPath (.create name),
      .on a.design.buildPath (.fill name)]) = (copies a.produced).map (.on a.design.buildPath) := by
    rw [copies, List.map_flatMap]
    rfl
  have logged : (made.file "vivado.log").isSome = true := by
    rw [files, if_pos log]
    rfl
  refine ⟨(made.put "csr.csv" .opened).put "csr.csv" .written, ?_, ?_⟩
  · refine run_cons.mpr ⟨disk, rfl, run_append.mpr
      ⟨Function.update disk a.design.buildPath (some made), ?_, ?_⟩⟩
    · rw [produced, run_on, emptied, path]
      rfl
    · simp [run, Operation.apply, Action.apply, logged, met]
  · intro f known
    rw [Directory.file_put, Directory.file_put, files]
    split_ifs with here made
    · rfl
    · rfl
    · exact absurd known (by simp [here, made])

private theorem run_copy_files {source target : Path} (apart : source ≠ target) {src : Directory} :
    ∀ {names : List String} {disk : Disk} (d : Directory), disk source = some src →
      disk target = some d → (∀ f ∈ names, (src.file f).isSome = true) →
        ∃ next, run Operation.apply (names.flatMap (copy source target)) disk = some next := by
  intro names
  induction names with
  | nil => exact fun {disk} _ _ _ _ => ⟨disk, rfl⟩
  | cons name names ih =>
    intro disk d from_ into there
    have unchanged : Function.update disk source (some src) = disk := by
      rw [← from_, Function.update_eq_self]
    have read : (Operation.on source (.read name)).apply disk = some disk := by
      simp [Operation.apply, Action.apply, from_, there name List.mem_cons_self, unchanged]
    have first : run Operation.apply (copy source target name) disk =
        some (Function.update disk target (some ((d.put name .opened).put name .written))) := by
      refine run_cons.mpr ⟨disk, read, ?_⟩
      simp [run, Operation.apply, Action.apply, into]
    obtain ⟨next, rest⟩ := ih ((d.put name .opened).put name .written)
      ((Function.update_of_ne apart _ disk).trans from_) (Function.update_self target _ disk)
      (fun f later => there f (List.mem_cons_of_mem name later))
    exact ⟨next, run_append.mpr ⟨_, first, rest⟩⟩

structure Produces : Prop where
  met : a.timingMet = true
  log : "vivado.log" ∈ a.produced
  files : ∀ f ∈ results, f = "csr.csv" ∨ f ∈ a.produced

variable {results a}

private theorem run_build (produces : Produces results a) (disk : Disk) :
    ∃ next, run Operation.apply (a.build results disk) disk = some next := by
  have apart := build_path_ne_result a.design a.design
  obtain ⟨made, path, there⟩ := run_make a produces.met produces.log
    (Function.update_self a.design.buildPath (some Directory.empty) disk)
  rw [Function.update_idem] at path
  let built : Disk := Function.update disk a.design.buildPath (some made)
  have untouched : built a.design.resultPath = disk a.design.resultPath :=
    Function.update_of_ne apart.symm _ disk
  have same : emptyPath a.scan a.design.resultPath disk = emptyPath a.scan a.design.resultPath built := by
    rw [emptyPath, emptyPath, untouched]
  let emptied : Disk := Function.update built a.design.resultPath (some .empty)
  have source : emptied a.design.buildPath = some made :=
    (Function.update_of_ne apart _ built).trans (Function.update_self _ _ disk)
  have target : emptied a.design.resultPath = some .empty := Function.update_self _ _ built
  obtain ⟨next, copied⟩ := run_copy_files apart .empty source target
    (fun f listed => there f (produces.files f listed))
  refine ⟨next, run_append.mpr ⟨built, run_append.mpr ⟨_, run_empty_path _ _ disk, path⟩,
    run_append.mpr ⟨emptied, ?_, copied⟩⟩⟩
  rw [same]
  exact run_empty_path _ _ built

/-- A build that no exception disturbs leaves all results of its design, and all of them complete. -/
theorem build_complete (produces : Produces results a) {disk : Disk}
    (builds : a.operations results disk = a.build results disk)
    (undisturbed : (a.build results disk).length ≤ a.survived) :
    Attempt.resultExists (a.next results disk) a.design = true ∧
      ∀ f ∈ results, fileIn (a.next results disk a.design.resultPath) f = some .written := by
  obtain ⟨next, path⟩ := run_build produces disk
  have all : a.steps results disk = a.build results disk := by
    rw [Attempt.steps, builds]
    exact performed_of_run Operation.apply undisturbed path
  have own := run_directory results a disk a.design.resultPath
  rw [all, actions_build] at own
  obtain ⟨cleared, removal, rest⟩ := run_append.mp own
  obtain rfl : none = cleared := Option.some.inj ((run_clear _ _).symm.trans removal)
  obtain ⟨d, copied, files⟩ := run_copies_complete results .empty
  have result : a.next results disk a.design.resultPath = some d :=
    (Option.some.inj (copied.symm.trans rest)).symm
  refine ⟨?_, fun f listed => ?_⟩
  · rw [Attempt.resultExists, result]
    rfl
  · rw [result, fileIn, Option.bind_some, files, if_pos listed]

theorem build_complete_new_design :
    Attempt.resultExists ((firstRun 100).next stemlabResults fun _ => none) (firstRun 100).design = true ∧
      ∀ f ∈ stemlabResults, fileIn ((firstRun 100).next stemlabResults (fun _ => none)
        (firstRun 100).design.resultPath) f = some .written :=
  build_complete ⟨rfl, by decide, by decide⟩ rfl (by decide)

end Pypga.Core.UndisturbedBuild
