/- GID: Pypga/Foundation/CsvReader
   generality: G
   digest: Reading comma-separated values letter by letter, whole texts and texts that were cut off. -/

import Mathlib.Data.Nat.Notation
import Mathlib.Logic.Basic

set_option autoImplicit false
set_option relaxedAutoImplicit false

namespace Pypga.Foundation.CsvReader

inductive Stage
  | startRecord
  | startField
  | inField
  | inQuotedField
  | quoteInQuotedField
  deriving DecidableEq

structure Reader where
  stage : Stage
  field : List Char
  fields : List (List Char)
  records : List (List (List Char))

namespace Reader

def empty : Reader := ⟨.startRecord, [], [], []⟩

def add (c : Char) (r : Reader) : Reader := { r with stage := .inField, field := r.field ++ [c] }

def saveField (r : Reader) : Reader :=
  { r with stage := .startField, field := [], fields := r.fields ++ [r.field] }

def endRecord (r : Reader) : Reader := ⟨.startRecord, [], [], r.records ++ [r.fields]⟩

def unquoted (c : Char) (r : Reader) : Reader :=
  if c = '\n' then r.saveField.endRecord
  else if c = ',' then r.saveField
  else r.add c

/-- Quotes count at the start of a field only, and twice inside of one; an empty line is a record
without fields. -/
def step (r : Reader) (c : Char) : Reader :=
  match r.stage with
  | .startRecord =>
    if c = '\n' then r.endRecord
    else if c = '"' then { r with stage := .inQuotedField }
    else r.unquoted c
  | .startField => if c = '"' then { r with stage := .inQuotedField } else r.unquoted c
  | .inField => r.unquoted c
  | .inQuotedField =>
    if c = '"' then { r with stage := .quoteInQuotedField }
    else { r with field := r.field ++ [c] }
  | .quoteInQuotedField =>
    if c = '"' then { r with stage := .inQuotedField, field := r.field ++ [c] } else r.unquoted c

def finish (r : Reader) : List (List (List Char)) :=
  match r.stage with
  | .startRecord => r.records
  | _ => r.saveField.endRecord.records

end Reader

def readRecords (text : List Char) : List (List (List Char)) :=
  (text.foldl Reader.step .empty).finish

/-- The letters that stand for themselves. -/
def Plain (c : Char) : Prop := c ≠ ',' ∧ c ≠ '"' ∧ c ≠ '\n' ∧ c ≠ '\r'

instance (c : Char) : Decidable (Plain c) := inferInstanceAs (Decidable (_ ∧ _))

def line : List (List Char) → List Char
  | [] => ['\n']
  | [field] => field ++ ['\n']
  | field :: fields => field ++ ',' :: line fields

structure Proper (record : List (List Char)) : Prop where
  plain : ∀ field ∈ record, ∀ c ∈ field, Plain c
  some : record ≠ []
  letters : record ≠ [[]]

inductive Cut : List (List Char) → List (List Char) → Prop
  | here {field part : List Char} {fields : List (List Char)} (inside : part <+: field) :
      Cut (field :: fields) [part]
  | later {field : List Char} {fields part : List (List Char)} (cut : Cut fields part) :
      Cut (field :: fields) (field :: part)

section Plain

variable {records : List (List (List Char))} {fields : List (List Char)} {field : List Char}

def outside (records : List (List (List Char))) (fields : List (List Char)) (field : List Char) :
    Reader where
  stage := if field ≠ [] then .inField else if fields ≠ [] then .startField else .startRecord
  field := field
  fields := fields
  records := records

private theorem step_plain {c : Char} (plain : Plain c) :
    (outside records fields field).step c = outside records fields (field ++ [c]) := by
  obtain ⟨comma, quote, newline, -⟩ := plain
  unfold outside Reader.step Reader.unquoted Reader.add
  by_cases first : field = [] <;> by_cases alone : fields = [] <;>
    simp [first, alone, comma, quote, newline]

private theorem step_comma : (outside records fields field).step ',' =
    outside records (fields ++ [field]) [] := by
  unfold outside Reader.step Reader.unquoted Reader.saveField
  by_cases first : field = [] <;> by_cases alone : fields = [] <;> simp [first, alone]

private theorem step_newline (letters : fields ++ [field] ≠ [[]]) :
    (outside records fields field).step '\n' = outside (records ++ [fields ++ [field]]) [] [] := by
  unfold outside Reader.step Reader.unquoted Reader.saveField Reader.endRecord
  by_cases first : field = []
  · have more : fields ≠ [] := by
      rintro rfl
      exact letters (by rw [first]; rfl)
    simp [first, more]
  · simp [first]

variable (records fields field) in
private theorem feed_field {letters : List Char} (plain : ∀ c ∈ letters, Plain c) :
    letters.foldl Reader.step (outside records fields field) =
      outside records fields (field ++ letters) := by
  induction letters generalizing field with
  | nil => rw [List.append_nil]; rfl
  | cons c letters ih =>
    rw [List.foldl_cons, step_plain (plain c List.mem_cons_self),
      ih _ fun d there => plain d (List.mem_cons_of_mem c there), List.append_assoc]
    rfl

private theorem finish_outside (started : fields ≠ [] ∨ field ≠ []) :
    (outside records fields field).finish = records ++ [fields ++ [field]] := by
  unfold outside Reader.finish Reader.saveField Reader.endRecord
  by_cases first : field = []
  · have more : fields ≠ [] := started.resolve_right fun letters => letters first
    simp [first, more]
  · simp [first]

end Plain

section Prefixes

private theorem prefix_append_cases {α : Type*} {p a b : List α} (cut : p <+: a ++ b) :
    (p <+: a ∧ p ≠ a) ∨ ∃ q, p = a ++ q ∧ q <+: b := by
  induction a generalizing p with
  | nil => exact .inr ⟨p, rfl, cut⟩
  | cons x a ih =>
    rcases List.prefix_cons_iff.mp cut with rfl | ⟨t, rfl, inside⟩
    · exact .inl ⟨List.nil_prefix, (List.cons_ne_nil x a).symm⟩
    · rcases ih inside with ⟨before, differ⟩ | ⟨q, rfl, later⟩
      · refine .inl ⟨(List.prefix_cons_inj x).mpr before, ?_⟩
        rintro same
        exact differ (List.cons.inj same).2
      · exact .inr ⟨q, rfl, later⟩

variable {records : List (List (List Char))}

private theorem finish_cut {earlier fields : List (List Char)} {field p : List Char}
    (plain : ∀ c ∈ field, Plain c) (inside : p <+: field) :
    (earlier = [] ∧ p = []) ∨ ∃ part, Cut (field :: fields) part ∧
      (p.foldl Reader.step (outside records earlier [])).finish = records ++ [earlier ++ part] := by
  have here := feed_field records earlier []
    fun c there => plain c (inside.subset there)
  rw [List.nil_append] at here
  by_cases started : earlier ≠ [] ∨ p ≠ []
  · exact .inr ⟨[p], .here inside, by rw [here, finish_outside started]⟩
  · rw [not_or, not_not, not_not] at started
    exact .inl started

variable (records) in
private theorem feed_line {fields : List (List Char)}
    (plain : ∀ field ∈ fields, ∀ c ∈ field, Plain c)
    (some : fields ≠ []) (earlier : List (List Char)) (letters : earlier ++ fields ≠ [[]])
    {p : List Char} (cut : p <+: line fields) :
    (p = line fields ∧ p.foldl Reader.step (outside records earlier []) =
      outside (records ++ [earlier ++ fields]) [] []) ∨
    (p ≠ line fields ∧ ((earlier = [] ∧ p = []) ∨ ∃ part, Cut fields part ∧
      (p.foldl Reader.step (outside records earlier [])).finish = records ++ [earlier ++ part])) := by
  induction fields generalizing earlier p with
  | nil => exact absurd rfl some
  | cons field fields ih =>
    have first := plain field List.mem_cons_self
    cases fields with
    | nil =>
      have short : p <+: field → p ≠ line [field] := by
        rintro ⟨t, rfl⟩ same
        have lengths := congrArg List.length same
        simp only [line, List.length_append, List.length_singleton] at lengths
        omega
      rcases prefix_append_cases cut with ⟨inside, -⟩ | ⟨q, rfl, rest⟩
      · exact .inr ⟨short inside, finish_cut first inside⟩
      · rcases List.prefix_cons_iff.mp rest with rfl | ⟨t, rfl, last⟩
        · rw [List.append_nil] at short ⊢
          exact .inr ⟨short (List.prefix_refl field), finish_cut first (List.prefix_refl field)⟩
        · obtain rfl := List.prefix_nil.mp last
          refine .inl ⟨rfl, ?_⟩
          rw [List.foldl_append, feed_field _ _ _ first, List.nil_append]
          exact step_newline letters
    | cons next fields =>
      have short : p <+: field → p ≠ line (field :: next :: fields) := by
        rintro ⟨t, rfl⟩ same
        have lengths := congrArg List.length same
        simp only [line, List.length_append, List.length_cons] at lengths
        omega
      rcases prefix_append_cases cut with ⟨inside, -⟩ | ⟨q, rfl, rest⟩
      · exact .inr ⟨short inside, finish_cut first inside⟩
      · rcases List.prefix_cons_iff.mp rest with rfl | ⟨t, rfl, last⟩
        · rw [List.append_nil] at short ⊢
          exact .inr ⟨short (List.prefix_refl field), finish_cut first (List.prefix_refl field)⟩
        · have comma : (field ++ ',' :: t).foldl Reader.step (outside records earlier []) =
              t.foldl Reader.step (outside records (earlier ++ [field]) []) := by
            rw [List.foldl_append, feed_field _ _ _ first, List.nil_append, List.foldl_cons, step_comma]
          have more : (earlier ++ [field]) ++ next :: fields ≠ [[]] := by
            intro same
            have lengths := congrArg List.length same
            simp only [List.length_append, List.length_cons, List.length_nil] at lengths
            omega
          have later := ih (fun f there => plain f (List.mem_cons_of_mem field there))
            (List.cons_ne_nil next fields) _ more last
          have longer : line (field :: next :: fields) = field ++ ',' :: line (next :: fields) := rfl
          rw [comma, longer]
          rcases later with ⟨rfl, whole⟩ | ⟨differ, ⟨none, -⟩ | ⟨part, left, finish⟩⟩
          · refine .inl ⟨rfl, ?_⟩
            rw [whole, List.append_assoc]
            rfl
          · exact absurd none (List.append_ne_nil_of_right_ne_nil _ (List.cons_ne_nil _ _))
          · refine .inr ⟨?_, .inr ⟨field :: part, .later left, ?_⟩⟩
            · intro same
              exact differ (List.cons.inj (List.append_cancel_left same)).2
            · rw [finish, List.append_assoc]
              rfl

def text (records : List (List (List Char))) : List Char := (records.map line).flatten

private theorem text_cons (record : List (List Char)) (all : List (List (List Char))) :
    text (record :: all) = line record ++ text all := rfl

private theorem feed_record {record : List (List Char)} (proper : Proper record) :
    (line record).foldl Reader.step (outside records [] []) = outside (records ++ [record]) [] [] := by
  rcases feed_line records proper.plain proper.some [] proper.letters
    (List.prefix_refl (line record)) with ⟨-, whole⟩ | ⟨differ, -⟩
  · exact whole
  · exact absurd rfl differ

theorem read_text {all : List (List (List Char))} (proper : ∀ record ∈ all, Proper record) :
    readRecords (text all) = all := by
  have fed (records : List (List (List Char))) :
      (text all).foldl Reader.step (outside records [] []) = outside (records ++ all) [] [] := by
    induction all generalizing records with
    | nil => rw [List.append_nil]; rfl
    | cons record all ih =>
      rw [text_cons, List.foldl_append, feed_record (proper record List.mem_cons_self),
        ih fun other there => proper other (List.mem_cons_of_mem record there), List.append_assoc]
      rfl
  have start := fed []
  rw [List.nil_append] at start
  exact congrArg Reader.finish start

/-- Of a text that was cut off, the records before the cut are read, and what is left of the one
that was cut. -/
theorem read_prefix {all : List (List (List Char))} (proper : ∀ record ∈ all, Proper record)
    {p : List Char} (cut : p <+: text all) :
    ∃ k, readRecords p = all.take k ∨
      ∃ record ∈ all[k]?, ∃ part, Cut record part ∧ readRecords p = all.take k ++ [part] := by
  have fed (records : List (List (List Char))) :
      ∃ k, (p.foldl Reader.step (outside records [] [])).finish = records ++ all.take k ∨
        ∃ record ∈ all[k]?, ∃ part, Cut record part ∧
          (p.foldl Reader.step (outside records [] [])).finish =
            records ++ (all.take k ++ [part]) := by
    induction all generalizing p records with
    | nil =>
      obtain rfl := List.prefix_nil.mp cut
      exact ⟨0, .inl (List.append_nil records).symm⟩
    | cons record all ih =>
      have here := proper record List.mem_cons_self
      rcases prefix_append_cases cut with ⟨inside, differ⟩ | ⟨q, rfl, rest⟩
      · rcases feed_line records here.plain here.some [] here.letters inside
          with ⟨same, -⟩ | ⟨-, ⟨-, rfl⟩ | ⟨part, left, finish⟩⟩
        · exact absurd same differ
        · exact ⟨0, .inl (List.append_nil records).symm⟩
        · exact ⟨0, .inr ⟨record, rfl, part, left, finish⟩⟩
      · obtain ⟨k, found⟩ := ih (fun other there => proper other (List.mem_cons_of_mem record there))
          rest (records ++ [record])
        refine ⟨k + 1, ?_⟩
        rw [List.foldl_append, feed_record here, List.take_succ_cons]
        simp only [List.append_assoc, List.singleton_append] at found
        exact found
  obtain ⟨k, found⟩ := fed []
  exact ⟨k, found⟩

end Prefixes

end Pypga.Foundation.CsvReader
