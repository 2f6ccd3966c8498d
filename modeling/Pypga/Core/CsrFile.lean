/- GID: Pypga/Core/CsrFile
   generality: G
   digest: The file of the register addresses: what is read of it, also when it has been cut off. -/

import Pypga.Core.RegisterNames
import Pypga.Foundation.CsvReader
import Pypga.Foundation.Numerals

set_option autoImplicit false
set_option relaxedAutoImplicit false

namespace Pypga.Core.CsrFile

open Pypga.Foundation.CsvReader
open Pypga.Foundation.Numerals
open Pypga.Foundation.StoreSequence
open Pypga.Core.RegisterNames (Register Row Listing NamesApart)

inductive Error
  | indexError
  | valueError
  deriving DecidableEq

structure Entry where
  name : String
  address : ℤ
  size : ℤ
  mode : String
  deriving DecidableEq

def item (row : List (List Char)) (i : ℕ) : Except Error (List Char) :=
  match row[i]? with
  | some field => .ok field
  | none => .error .indexError

def integer : Option ℤ → Except Error ℤ
  | some v => .ok v
  | none => .error .valueError

/-- The body of the loop of `CsrMap.__init__`. -/
def entry (row : List (List Char)) : Except Error Entry := do
  let name ← item row 0
  let address ← integer (intLiteral (← item row 1))
  let size ← integer (int (← item row 2))
  let mode ← item row 3
  pure ⟨String.ofList name, address, size, String.ofList mode⟩

def readEntries (file : List Char) : Except Error (List Entry) := (readRecords file).mapM entry

structure CsrMap where
  address : String → Option ℤ
  size : String → Option ℤ
  mode : String → Option String

/-- Each row sets the entries of its name, also if they have been set. -/
def load (entries : List Entry) : CsrMap where
  address := storeAll (entries.map fun e => (e.name, some e.address)) fun _ => none
  size := storeAll (entries.map fun e => (e.name, some e.size)) fun _ => none
  mode := storeAll (entries.map fun e => (e.name, some e.mode)) fun _ => none

/-- `CsrMap.__init__`. -/
def csrMap (file : List Char) : Except Error CsrMap := (readEntries file).map load

/-- A missing name raises a `KeyError`. -/
def CsrMap.getItem (m : CsrMap) (name : String) : Option (ℤ × ℤ × String) := do
  pure (← m.address name, ← m.size name, ← m.mode name)

section Rows

variable (addressText sizeText : ℕ → List Char)

def record (row : Row) : List (List Char) :=
  [row.name.toList, addressText row.address, sizeText row.size, row.mode.toList]

def csrCsv (rows : List Row) : List Char := text (rows.map (record addressText sizeText))

structure Written (row : Row) : Prop where
  plain : ∀ field ∈ record addressText sizeText row, ∀ c ∈ field, Plain c
  address : intLiteral (addressText row.address) = some (row.address : ℤ)
  size : int (sizeText row.size) = some (row.size : ℤ)

def Row.entry (row : Row) : Entry := ⟨row.name, row.address, row.size, row.mode⟩

variable {addressText sizeText}

private theorem record_proper {row : Row} (written : Written addressText sizeText row) :
    Proper (record addressText sizeText row) := by
  refine ⟨written.plain, List.cons_ne_nil _ _, fun same => ?_⟩
  simpa [record] using congrArg List.length same

private theorem entry_fields {row : Row} (written : Written addressText sizeText row)
    (mode : List Char) :
    entry [row.name.toList, addressText row.address, sizeText row.size, mode] =
      .ok ⟨row.name, row.address, row.size, String.ofList mode⟩ := by
  simp [entry, item, written.address, written.size, integer, bind, Except.bind, pure, Except.pure]

private theorem entry_short {fields : List (List Char)} (short : fields.length < 4) :
    ∃ e, entry fields = .error e := by
  match fields with
  | [] => exact ⟨_, rfl⟩
  | [name] => exact ⟨_, rfl⟩
  | [name, address] => cases read : intLiteral address <;>
      simp [entry, item, integer, read, bind, Except.bind]
  | [name, address, size] => cases read : intLiteral address <;> cases other : int size <;>
      simp [entry, item, integer, read, other, bind, Except.bind]
  | _ :: _ :: _ :: _ :: _ =>
    simp only [List.length_cons] at short
    omega

private theorem cut_record {row : Row} {part : List (List Char)}
    (cut : Cut (record addressText sizeText row) part) :
    part.length < 4 ∨
      ∃ mode, part = [row.name.toList, addressText row.address, sizeText row.size, mode] := by
  cases cut with
  | here => exact .inl (by simp)
  | later cut =>
    cases cut with
    | here => exact .inl (by simp)
    | later cut =>
      cases cut with
      | here => exact .inl (by simp)
      | later cut =>
        cases cut with
        | here => exact .inr ⟨_, rfl⟩
        | later cut => cases cut

def Entry.located (e : Entry) : String × ℤ × ℤ := (e.name, e.address, e.size)

private theorem entries_records {rows : List Row}
    (written : ∀ row ∈ rows, Written addressText sizeText row) :
    (rows.map (record addressText sizeText)).mapM entry = .ok (rows.map Row.entry) := by
  induction rows with
  | nil => rfl
  | cons row rows ih =>
    rw [List.map_cons, List.mapM_cons, ih fun other there => written other (List.mem_cons_of_mem row there)]
    have first : entry (record addressText sizeText row) = .ok (Row.entry row) := by
      rw [record, entry_fields (written row List.mem_cons_self), String.ofList_toList]
      rfl
    rw [first]
    rfl

variable {rows : List Row} (written : ∀ row ∈ rows, Written addressText sizeText row)
include written

private theorem records_proper : ∀ r ∈ rows.map (record addressText sizeText), Proper r := by
  intro r there
  obtain ⟨row, inside, rfl⟩ := List.mem_map.mp there
  exact record_proper (written row inside)

private theorem read_entries :
    readEntries (csrCsv addressText sizeText rows) = .ok (rows.map Row.entry) := by
  rw [readEntries, csrCsv, read_text (records_proper written), entries_records written]

private theorem read_cut {p : List Char} (cut : p <+: csrCsv addressText sizeText rows)
    {es : List Entry} (read : readEntries p = .ok es) :
    ∃ k, es.map Entry.located = (rows.take k).map fun row => (Row.entry row).located := by
  have first (k : ℕ) : ∀ row ∈ rows.take k, Written addressText sizeText row :=
    fun row there => written row (List.mem_of_mem_take there)
  obtain ⟨k, whole | ⟨r, inside, part, left, more⟩⟩ := read_prefix (records_proper written) cut
  · rw [readEntries, whole, ← List.map_take, entries_records (first k)] at read
    obtain rfl := Except.ok.inj read
    exact ⟨k, by rw [List.map_map]; rfl⟩
  · rw [List.getElem?_map] at inside
    obtain ⟨row, here, rfl⟩ := Option.map_eq_some_iff.mp inside
    rw [readEntries, more, List.mapM_append, ← List.map_take, entries_records (first k)] at read
    rcases cut_record left with short | ⟨mode, rfl⟩
    · obtain ⟨e, raised⟩ := entry_short short
      simp [raised, bind, Except.bind] at read
    · have fields := entry_fields (written row (List.mem_of_getElem? here)) mode
      simp [fields, bind, Except.bind, pure, Except.pure] at read
      subst read
      refine ⟨k + 1, ?_⟩
      rw [List.take_add_one, here, List.map_append, List.map_append, ← List.map_take, List.map_map]
      rfl

end Rows

section Files

variable {α : Type} (field : Entry → α) {es : List Entry}

private theorem stored_of_unique {e : Entry} (member : e ∈ es)
    (unique : ∀ other ∈ es, other.name = e.name → field other = field e) :
    storeAll (es.map fun e => (e.name, some (field e))) (fun _ => none) e.name = some (field e) := by
  have last : lastStore (es.map fun e => (e.name, some (field e))) e.name = some (some (field e)) := by
    apply last_store_of_mem
    · exact List.mem_map_of_mem (f := fun e => (e.name, some (field e))) member
    · intro s there here
      obtain ⟨other, inside, rfl⟩ := List.mem_map.mp there
      exact congrArg some (unique other inside here)
  rw [store_all_eq, last]
  rfl

private theorem stored_of_absent {name : String} (absent : ∀ e ∈ es, e.name ≠ name) :
    storeAll (es.map fun e => (e.name, some (field e))) (fun _ => none) name = none := by
  have none : lastStore (es.map fun e => (e.name, some (field e))) name = none := by
    apply last_store_eq_none
    intro s there
    obtain ⟨e, inside, rfl⟩ := List.mem_map.mp there
    exact absent e inside
  rw [store_all_eq, none]
  rfl

variable {addressText sizeText : ℕ → List Char} {rs : List Register} (l : Listing rs)
  (written : ∀ row ∈ l.rows, Written addressText sizeText row) (apart : NamesApart rs)

include apart in
private theorem row_unique {r : Register} (member : r ∈ rs) {row : Row} (there : row ∈ l.rows)
    (named : row.name = r.getFullName) : row = l.row r := by
  obtain ⟨r', member', rfl⟩ := l.only row there r member named
  by_cases differ : r' = r
  · rw [differ]
  · rw [l.named r' member'] at named
    exact absurd named (apart r' member' r member differ)

include written apart

/-- Whatever texts the builder writes for the numbers, as long as they are read as them: the file gives
every register the address of its row. A file that was cut off anywhere raises, or gives every
register the address of its row or none. -/
theorem file_addresses :
    (∃ m, csrMap (csrCsv addressText sizeText l.rows) = .ok m ∧ ∀ r ∈ rs, m.getItem r.getFullName =
      some (((l.row r).address : ℤ), ((l.row r).size : ℤ), (l.row r).mode)) ∧
    ∀ p m, p <+: csrCsv addressText sizeText l.rows → csrMap p = .ok m → ∀ r ∈ rs,
      m.address r.getFullName = some ((l.row r).address : ℤ) ∨ m.address r.getFullName = none := by
  constructor
  · refine ⟨load (l.rows.map Row.entry), by rw [csrMap, read_entries written]; rfl, ?_⟩
    intro r member
    have stored {α : Type} (field : Entry → α) :
        storeAll ((l.rows.map Row.entry).map fun e => (e.name, some (field e))) (fun _ => none)
          r.getFullName = some (field (Row.entry (l.row r))) := by
      rw [← l.named r member]
      refine stored_of_unique field (e := Row.entry (l.row r)) (List.mem_map_of_mem (l.listed r member)) ?_
      intro other there same
      obtain ⟨row, inside, rfl⟩ := List.mem_map.mp there
      rw [row_unique l apart member inside (same.trans (l.named r member))]
    simp only [CsrMap.getItem, load, stored]
    rfl
  · intro p m cut read r member
    cases found : readEntries p with
    | error e =>
      rw [csrMap, found] at read
      cases read
    | ok es =>
      rw [csrMap, found] at read
      obtain rfl := Except.ok.inj read
      obtain ⟨k, located⟩ := read_cut written cut found
      have right : ∀ e ∈ es, e.name = r.getFullName → e.address = (l.row r).address := by
        intro e there named
        have inside := List.mem_map_of_mem (f := Entry.located) there
        rw [located] at inside
        obtain ⟨row, taken, same⟩ := List.mem_map.mp inside
        have name : row.name = r.getFullName := (congrArg Prod.fst same).trans named
        obtain rfl := row_unique l apart member (List.mem_of_mem_take taken) name
        exact (congrArg (fun x => x.2.1) same).symm
      by_cases absent : ∀ e ∈ es, e.name ≠ r.getFullName
      · exact .inr (stored_of_absent _ absent)
      · push Not at absent
        obtain ⟨e, there, named⟩ := absent
        have stored := stored_of_unique Entry.address there
          fun other inside same => (right other inside (same.trans named)).trans (right e there named).symm
        rw [named, right e there named] at stored
        exact .inl stored

end Files

section Leds

open Pypga.Core.RegisterNames (leds registers)

def ledsFile : Listing (registers leds (.top "top")) := Listing.consecutive _

private theorem digits_plain {ds : List ℕ} (few : ∀ d ∈ ds, d < 16) :
    ∀ c ∈ ds.map Nat.digitChar, Plain c := by
  have each : ∀ d < 16, Plain (Nat.digitChar d) := by decide
  intro c there
  obtain ⟨d, inside, rfl⟩ := List.mem_map.mp there
  exact each d (few d inside)

private theorem leds_written : ∀ row ∈ ledsFile.rows, Written hexadecimal decimal row := by
  have all : (ledsFile.rows.all fun row => row.name.toList.all (fun c => decide (Plain c)) &&
      row.mode.toList.all fun c => decide (Plain c)) = true := by decide
  intro row there
  have both := List.all_eq_true.mp all row there
  rw [Bool.and_eq_true] at both
  refine ⟨?_, int_hexadecimal row.address, int_decimal row.size⟩
  intro field listed
  simp only [record, List.mem_cons, List.not_mem_nil, or_false] at listed
  rcases listed with rfl | rfl | rfl | rfl
  · exact fun c inside => of_decide_eq_true (List.all_eq_true.mp both.1 c inside)
  · intro c inside
    rcases List.mem_cons.mp inside with rfl | inside
    · decide
    · rcases List.mem_cons.mp inside with rfl | inside
      · decide
      · exact digits_plain (digits_of_lt (by decide)) c inside
  · exact digits_plain fun d digit => (digits_of_lt (by decide) d digit).trans (by decide : 10 < 16)
  · exact fun c inside => of_decide_eq_true (List.all_eq_true.mp both.2 c inside)

theorem file_addresses_leds :
    (∃ m, csrMap (csrCsv hexadecimal decimal ledsFile.rows) = .ok m ∧
      ∀ r ∈ registers leds (.top "top"),
        m.getItem r.getFullName = some (((ledsFile.row r).address : ℤ), 1, "rw")) ∧
    ∀ p m, p <+: csrCsv hexadecimal decimal ledsFile.rows → csrMap p = .ok m →
      ∀ r ∈ registers leds (.top "top"),
        m.address r.getFullName = some ((ledsFile.row r).address : ℤ) ∨
          m.address r.getFullName = none := by
  have apart : NamesApart (registers leds (.top "top")) := by
    unfold NamesApart
    decide
  exact file_addresses ledsFile leds_written apart

end Leds

end Pypga.Core.CsrFile
