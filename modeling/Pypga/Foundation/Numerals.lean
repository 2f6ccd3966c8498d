/- GID: Pypga/Foundation/Numerals
   generality: G
   digest: Integers written with digits, and read back as Python reads them. -/

import Mathlib.Data.Nat.Digits.Defs

set_option autoImplicit false
set_option relaxedAutoImplicit false

namespace Pypga.Foundation.Numerals

section Reading

def letterValue (c : Char) : ℕ :=
  if '0' ≤ c ∧ c ≤ '9' then c.toNat - '0'.toNat
  else if 'a' ≤ c ∧ c ≤ 'z' then c.toNat - 'a'.toNat + 10
  else if 'A' ≤ c ∧ c ≤ 'Z' then c.toNat - 'A'.toNat + 10
  else 36

def digitValue (base : ℕ) (c : Char) : Option ℕ :=
  if letterValue c < base then some (letterValue c) else none

def moreDigits (base : ℕ) : ℕ → List Char → Option ℕ
  | value, [] => some value
  | value, '_' :: c :: rest => (digitValue base c).bind fun d => moreDigits base (value * base + d) rest
  | value, c :: rest => (digitValue base c).bind fun d => moreDigits base (value * base + d) rest

def number (base : ℕ) : List Char → Option ℕ
  | [] => none
  | c :: rest => (digitValue base c).bind fun d => moreDigits base d rest

/-- The spaces that `int` ignores, among the letters of ASCII. -/
def space (c : Char) : Bool := (9 ≤ c.toNat ∧ c.toNat ≤ 13) ∨ (28 ≤ c.toNat ∧ c.toNat ≤ 32)

def strip (letters : List Char) : List Char :=
  ((letters.dropWhile space).reverse.dropWhile space).reverse

def signed (unsigned : List Char → Option ℕ) (letters : List Char) : Option ℤ :=
  match strip letters with
  | '-' :: rest => (unsigned rest).map fun n => -(n : ℤ)
  | '+' :: rest => (unsigned rest).map fun n => (n : ℤ)
  | rest => (unsigned rest).map fun n => (n : ℤ)

def afterPrefix (base : ℕ) : List Char → Option ℕ
  | '_' :: rest => number base rest
  | rest => number base rest

def decimalLiteral (letters : List Char) : Option ℕ :=
  (number 10 letters).filter fun n => n = 0 ∨ letters.head? ≠ some '0'

def literal : List Char → Option ℕ
  | '0' :: c :: rest =>
    if c = 'x' ∨ c = 'X' then afterPrefix 16 rest
    else if c = 'o' ∨ c = 'O' then afterPrefix 8 rest
    else if c = 'b' ∨ c = 'B' then afterPrefix 2 rest
    else decimalLiteral ('0' :: c :: rest)
  | letters => decimalLiteral letters

/-- `int(letters)`. -/
def int : List Char → Option ℤ := signed (number 10)

/-- `int(letters, 0)`. -/
def intLiteral : List Char → Option ℤ := signed literal

end Reading

section Writing

def digitsOf (base least n : ℕ) : List ℕ :=
  (Nat.digits base n ++ List.replicate (least - (Nat.digits base n).length) 0).reverse

/-- `%d`. -/
def decimal (n : ℕ) : List Char := (digitsOf 10 1 n).map Nat.digitChar

/-- `0x%08x`. -/
def hexadecimal (n : ℕ) : List Char := '0' :: 'x' :: (digitsOf 16 8 n).map Nat.digitChar

end Writing

section Digits

variable {base least n : ℕ}

theorem digits_of_lt (several : 1 < base) : ∀ d ∈ digitsOf base least n, d < base := by
  intro d there
  rcases List.mem_append.mp (List.mem_reverse.mp there) with digit | zero
  · exact Nat.digits_lt_base several digit
  · rw [List.eq_of_mem_replicate zero]
    omega

private theorem digits_of_length : least ≤ (digitsOf base least n).length := by
  simp only [digitsOf, List.length_reverse, List.length_append, List.length_replicate]
  omega

private theorem digits_of_value :
    (digitsOf base least n).foldl (fun value d => value * base + d) 0 = n := by
  rw [digitsOf, List.foldl_reverse]
  have same : (fun d value => value * base + d) = fun d value => d + base * value := by
    funext d value
    rw [Nat.mul_comm, Nat.add_comm]
  rw [same]
  have value := Nat.ofDigits_eq_foldr base
    (Nat.digits base n ++ List.replicate (least - (Nat.digits base n).length) 0)
  rw [Nat.ofDigits_append_replicate_zero, Nat.ofDigits_digits] at value
  exact value.symm

/-- The letters of numbers: digits stand for their values, and none of them is a sign, a space, or
an underscore. -/
structure Digit (c : Char) (d : ℕ) : Prop where
  value : letterValue c = d
  mark : c ≠ '_' ∧ c ≠ '-' ∧ c ≠ '+'
  letter : space c = false

private theorem digit_char {d : ℕ} (few : d < 16) : Digit (Nat.digitChar d) d := by
  have each : ∀ d < 16, letterValue (Nat.digitChar d) = d ∧
      (Nat.digitChar d ≠ '_' ∧ Nat.digitChar d ≠ '-' ∧ Nat.digitChar d ≠ '+') ∧
      space (Nat.digitChar d) = false := by decide
  obtain ⟨value, mark, letter⟩ := each d few
  exact ⟨value, mark, letter⟩

private theorem more_digits {ds : List ℕ} (few : base ≤ 16) (below : ∀ d ∈ ds, d < base)
    (value : ℕ) :
    moreDigits base value (ds.map Nat.digitChar) =
      some (ds.foldl (fun value d => value * base + d) value) := by
  induction ds generalizing value with
  | nil => rfl
  | cons d ds ih =>
    have small := below d List.mem_cons_self
    have digit := digit_char (small.trans_le few)
    have here : digitValue base (Nat.digitChar d) = some d := by
      rw [digitValue, digit.value, if_pos small]
    rw [List.map_cons, List.foldl_cons, moreDigits, here]
    · exact ih (fun other there => below other (List.mem_cons_of_mem d there)) _
    · intro c rest underscore
      exact absurd underscore digit.mark.1

private theorem number_digits {ds : List ℕ} (few : base ≤ 16) (below : ∀ d ∈ ds, d < base)
    (some : ds ≠ []) :
    number base (ds.map Nat.digitChar) = .some (ds.foldl (fun value d => value * base + d) 0) := by
  cases ds with
  | nil => exact absurd rfl some
  | cons d ds =>
    have small := below d List.mem_cons_self
    have here : digitValue base (Nat.digitChar d) = .some d := by
      rw [digitValue, (digit_char (small.trans_le few)).value, if_pos small]
    rw [List.map_cons, number, here]
    show moreDigits base d _ = _
    rw [more_digits few fun other there => below other (List.mem_cons_of_mem d there), List.foldl_cons,
      Nat.zero_mul, Nat.zero_add]

private theorem strip_letters {letters : List Char} (none : ∀ c ∈ letters, space c = false) :
    strip letters = letters := by
  have kept {l : List Char} (none : ∀ c ∈ l, space c = false) : l.dropWhile space = l := by
    cases l with
    | nil => rfl
    | cons c l => rw [List.dropWhile_cons_of_neg (by simp [none c List.mem_cons_self])]
  rw [strip, kept none, kept fun c there => none c (List.mem_reverse.mp there), List.reverse_reverse]

private theorem signed_letters {unsigned : List Char → Option ℕ} {letters : List Char}
    (none : ∀ c ∈ letters, space c = false) (head : ∀ c ∈ letters.head?, c ≠ '-' ∧ c ≠ '+') :
    signed unsigned letters = (unsigned letters).map fun n => (n : ℤ) := by
  rw [signed, strip_letters none]
  split
  · exact absurd rfl (head '-' rfl).1
  · exact absurd rfl (head '+' rfl).2
  · rfl

private theorem digits_letters {ds : List ℕ} (few : ∀ d ∈ ds, d < 16) :
    ∀ c ∈ ds.map Nat.digitChar, ∃ d, Digit c d := by
  intro c there
  obtain ⟨d, inside, rfl⟩ := List.mem_map.mp there
  exact ⟨d, digit_char (few d inside)⟩

theorem int_decimal (n : ℕ) : int (decimal n) = some (n : ℤ) := by
  have below : ∀ d ∈ digitsOf 10 1 n, d < 10 := digits_of_lt (by decide)
  have some : digitsOf 10 1 n ≠ [] := List.length_pos_iff.mp digits_of_length
  have letters := digits_letters fun d there => (below d there).trans (by decide)
  rw [int, decimal, signed_letters, number_digits (by decide) below some, digits_of_value]
  · rfl
  · intro c there
    obtain ⟨d, digit⟩ := letters c there
    exact digit.letter
  · intro c first
    obtain ⟨d, digit⟩ := letters c (List.mem_of_mem_head? first)
    exact digit.mark.2

theorem int_hexadecimal (n : ℕ) : intLiteral (hexadecimal n) = some (n : ℤ) := by
  have below : ∀ d ∈ digitsOf 16 8 n, d < 16 := digits_of_lt (by decide)
  have some : digitsOf 16 8 n ≠ [] :=
    List.length_pos_iff.mp ((by decide : 0 < 8).trans_le digits_of_length)
  have letters := digits_letters below
  have read : literal (hexadecimal n) = .some n := by
    have digits := number_digits (le_refl 16) below some
    rw [digits_of_value] at digits
    rw [hexadecimal, literal, if_pos (.inl rfl), afterPrefix]
    · exact digits
    · intro rest first
      have there : '_' ∈ (digitsOf 16 8 n).map Nat.digitChar := by rw [first]; exact List.mem_cons_self
      obtain ⟨d, digit⟩ := letters '_' there
      exact absurd rfl digit.mark.1
  rw [intLiteral, signed_letters, read]
  · rfl
  · intro c there
    rcases List.mem_cons.mp there with rfl | there
    · rfl
    · rcases List.mem_cons.mp there with rfl | there
      · rfl
      · obtain ⟨d, digit⟩ := letters c there
        exact digit.letter
  · intro c first
    obtain rfl := Option.some.inj first
    exact ⟨by decide, by decide⟩

end Digits

end Pypga.Foundation.Numerals
