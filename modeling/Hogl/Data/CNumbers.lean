import Mathlib.Data.List.TakeWhile
import Mathlib.Data.Nat.Digits.Lemmas
import Mathlib.Tactic.Ring

namespace Hogl.Data

/-! # Numbers in C strings

`strtoul` and `strtoull` of the C standard, with a 64-bit result and in the
"C" locale.  A string is given from the current position up to, and without,
its terminator. -/

/-- The part of a byte string that C functions see. -/
def cstr (text : List UInt8) : List UInt8 := text.takeWhile (· != 0)

def isDigit (byte : UInt8) : Bool := 0x30 ≤ byte && byte ≤ 0x39

def isSpace (byte : UInt8) : Bool := byte == 0x20 || 0x09 ≤ byte && byte ≤ 0x0d

/-- The digits and then the letters of either case; 36 for anything else. -/
def digitValue (byte : UInt8) : Nat :=
  if isDigit byte then byte.toNat - 0x30
  else if 0x61 ≤ byte && byte ≤ 0x7a then byte.toNat - 0x61 + 10
  else if 0x41 ≤ byte && byte ≤ 0x5a then byte.toNat - 0x41 + 10
  else 36

/-- The value of a row of digits, most significant first. -/
def digitsNumber (base : Nat) (digits : List UInt8) : Nat :=
  digits.foldl (fun value digit => base * value + digitValue digit) 0

/-- What a conversion returns and leaves behind. -/
structure Conversion where
  value : Nat
  /-- `errno` was set to `ERANGE`. -/
  overflow : Bool
  /-- The text from `endptr` on. -/
  rest : List UInt8
deriving Repr, DecidableEq

/-- An optional sign: whether it is a minus, and what follows it. -/
def takeSign : List UInt8 → Bool × List UInt8
  | 0x2d :: rest => (true, rest)
  | 0x2b :: rest => (false, rest)
  | text => (false, text)

/-- The base that a base of 0 stands for, and the text behind its prefix. -/
def detectBase (text : List UInt8) : Nat × List UInt8 :=
  match text with
  | 0x30 :: mark :: first :: rest =>
      if (mark == 0x78 || mark == 0x58) && digitValue first < 16 then (16, first :: rest)
      else (8, text)
  | 0x30 :: _ => (8, text)
  | _ => (10, text)

/-- The conversion of the longest row of digits at the start of a text. -/
def convertDigits (base : Nat) (negative : Bool) (whole text : List UInt8) : Conversion :=
  let digits := text.takeWhile fun byte => digitValue byte < base
  let number := digitsNumber base digits
  if digits = [] then { value := 0, overflow := false, rest := whole }
  else {
    value := if 2 ^ 64 ≤ number then 2 ^ 64 - 1
      else if negative then (2 ^ 64 - number) % 2 ^ 64 else number
    overflow := decide (2 ^ 64 ≤ number)
    rest := text.dropWhile fun byte => digitValue byte < base }

/-- `strtoul` in base 10. -/
def strtoul10 (text : List UInt8) : Conversion :=
  let (negative, body) := takeSign (text.dropWhile isSpace)
  convertDigits 10 negative text body

/-- `strtoull` in base 0. -/
def strtoull0 (text : List UInt8) : Conversion :=
  let (negative, body) := takeSign (text.dropWhile isSpace)
  let (base, body) := detectBase body
  convertDigits base negative text body

/-! ## Rows of digits -/

theorem isDigit_iff (byte : UInt8) : isDigit byte = true ↔ 48 ≤ byte.toNat ∧ byte.toNat ≤ 57 := by
  simp [isDigit, UInt8.le_iff_toNat_le]

theorem digitValue_lt_ten_iff (byte : UInt8) : digitValue byte < 10 ↔ isDigit byte = true := by
  rw [digitValue]
  by_cases digit : isDigit byte = true
  · have bounds := (isDigit_iff byte).mp digit
    rw [if_pos digit, iff_true_right digit]
    omega
  · rw [if_neg digit, iff_false_right digit]
    split
    · omega
    · split <;> omega

theorem takeWhile_digits (text : List UInt8) :
    (text.takeWhile fun byte => digitValue byte < 10) = text.takeWhile isDigit := by
  congr 1
  funext byte
  rw [Bool.eq_iff_iff, decide_eq_true_iff]
  exact digitValue_lt_ten_iff byte

theorem dropWhile_digits (text : List UInt8) :
    (text.dropWhile fun byte => digitValue byte < 10) = text.dropWhile isDigit := by
  congr 1
  funext byte
  rw [Bool.eq_iff_iff, decide_eq_true_iff]
  exact digitValue_lt_ten_iff byte

theorem takeSign_digit {text : List UInt8} (digit : text.head?.any isDigit = true) :
    takeSign (text.dropWhile isSpace) = (false, text) := by
  cases text with
  | nil => simp at digit
  | cons byte rest =>
      obtain ⟨lower, upper⟩ := (isDigit_iff byte).mp (by simpa using digit)
      have noSpace : ¬ isSpace byte = true := by
        simp only [isSpace, Bool.or_eq_true, beq_iff_eq, Bool.and_eq_true, decide_eq_true_eq,
          UInt8.le_iff_toNat_le, ← UInt8.toNat_inj]
        change ¬ (byte.toNat = 32 ∨ 9 ≤ byte.toNat ∧ byte.toNat ≤ 13)
        omega
      have noSign (sign : UInt8) (small : sign.toNat < 48) : byte ≠ sign := by
        rintro rfl
        omega
      rw [List.dropWhile_cons_of_neg noSpace]
      unfold takeSign
      split
      · rename_i equal
        exact absurd (List.cons.inj equal).1 (noSign 0x2d (by decide))
      · rename_i equal
        exact absurd (List.cons.inj equal).1 (noSign 0x2b (by decide))
      · rfl

/-- The number at the start of a text, cut off at the largest result. -/
def leadingNumber (text : List UInt8) : Nat :=
  min (digitsNumber 10 (text.takeWhile isDigit)) (2 ^ 64 - 1)

theorem strtoul10_digit {text : List UInt8} (digit : text.head?.any isDigit = true) :
    (strtoul10 text).value = leadingNumber text ∧ (strtoul10 text).rest = text.dropWhile isDigit := by
  have some : text.takeWhile isDigit ≠ [] := by
    cases text with
    | nil => simp at digit
    | cons byte rest =>
        have first : isDigit byte = true := by simpa using digit
        simp [first]
  simp only [strtoul10, takeSign_digit digit, convertDigits, takeWhile_digits, dropWhile_digits,
    if_neg some, leadingNumber, Bool.false_eq_true, if_false, and_true]
  split <;> omega

/-! ## Spelling a number -/

/-- The digit for a value below sixteen, in lower case. -/
def digitChar (value : Nat) : UInt8 := UInt8.ofNat (if value < 10 then 0x30 + value else 0x57 + value)

/-- A number spelled in a base without leading zeros. -/
def spell (base number : Nat) : List UInt8 :=
  if number = 0 then [0x30] else (Nat.digits base number).reverse.map digitChar

theorem digitValue_digitChar {value : Nat} (small : value < 16) :
    digitValue (digitChar value) = value := by
  revert value
  decide

theorem digitsNumber_map (base : Nat) {values : List Nat} (small : ∀ value ∈ values, value < 16) :
    digitsNumber base (values.reverse.map digitChar) = Nat.ofDigits base values := by
  induction values with
  | nil => rfl
  | cons value values ih =>
      have rest := ih fun other member => small other (List.mem_cons_of_mem _ member)
      rw [digitsNumber] at rest ⊢
      rw [List.reverse_cons, List.map_append, List.foldl_append, rest, Nat.ofDigits_cons]
      change base * Nat.ofDigits base values + digitValue (digitChar value) = _
      rw [digitValue_digitChar (small value List.mem_cons_self)]
      ring

section

variable {base : Nat} (wide : 1 < base) (narrow : base ≤ 16)

include wide narrow

theorem spell_digits (number : Nat) : ∀ byte ∈ spell base number, digitValue byte < base := by
  intro byte member
  rw [spell] at member
  split at member
  · rw [List.mem_singleton.mp member]
    exact Nat.lt_trans Nat.zero_lt_one wide
  · obtain ⟨value, inside, rfl⟩ := List.mem_map.mp member
    have small := Nat.digits_lt_base wide (List.mem_reverse.mp inside)
    rw [digitValue_digitChar (by omega)]
    exact small

theorem digitsNumber_spell (number : Nat) : digitsNumber base (spell base number) = number := by
  rw [spell]
  split
  · rename_i zero
    rw [zero]
    rfl
  · rw [digitsNumber_map, Nat.ofDigits_digits]
    intro value inside
    exact Nat.lt_of_lt_of_le (Nat.digits_lt_base wide inside) narrow

end

theorem spell_ne_nil (base number : Nat) : spell base number ≠ [] := by
  rw [spell]
  split
  · simp
  · rename_i nonzero
    simpa using Nat.digits_ne_nil_iff_ne_zero.mpr nonzero

theorem spell_head {number : Nat} (nonzero : number ≠ 0) :
    ∃ first rest, spell 10 number = first :: rest ∧ isDigit first = true ∧ first ≠ 0x30 := by
  have digits : Nat.digits 10 number ≠ [] := Nat.digits_ne_nil_iff_ne_zero.mpr nonzero
  have leading := Nat.getLast_digit_ne_zero 10 nonzero
  have small := Nat.digits_lt_base (show 1 < 10 by decide) (List.getLast_mem digits)
  have split := List.dropLast_append_getLast digits
  generalize (Nat.digits 10 number).getLast digits = value at *
  have spelled : spell 10 number =
      digitChar value :: (Nat.digits 10 number).dropLast.reverse.map digitChar := by
    rw [spell, if_neg nonzero, ← split, List.reverse_concat, List.map_cons, split]
  have shown : ∀ value < 10, value ≠ 0 →
      isDigit (digitChar value) = true ∧ digitChar value ≠ 0x30 := by decide
  exact ⟨_, _, spelled, shown value small leading⟩

theorem strtoull0_spell {number : Nat} (nonzero : number ≠ 0) (fits : number < 2 ^ 64) :
    strtoull0 (spell 10 number) = { value := number, overflow := false, rest := [] } := by
  obtain ⟨first, rest, spelled, digit, leading⟩ := spell_head nonzero
  have signless : takeSign ((spell 10 number).dropWhile isSpace) = (false, spell 10 number) :=
    takeSign_digit (by rw [spelled]; simpa using digit)
  have decimal : detectBase (spell 10 number) = (10, spell 10 number) := by
    rw [spelled]
    unfold detectBase
    split
    · rename_i equal
      exact absurd (List.cons.inj equal).1 leading
    · rename_i equal
      exact absurd (List.cons.inj equal).1 leading
    · rfl
  have all : ∀ byte ∈ spell 10 number, decide (digitValue byte < 10) = true := fun byte member =>
    decide_eq_true (spell_digits (by decide) (by decide) number byte member)
  have taken : ((spell 10 number).takeWhile fun byte => digitValue byte < 10) = spell 10 number :=
    List.takeWhile_eq_self_iff.mpr all
  have dropped : ((spell 10 number).dropWhile fun byte => digitValue byte < 10) = [] :=
    List.dropWhile_eq_nil_iff.mpr all
  simp only [strtoull0, signless, decimal, convertDigits, taken, dropped, spell_ne_nil, if_false,
    digitsNumber_spell (show 1 < 10 by decide) (by decide), Nat.not_le.mpr fits, decide_false,
    Bool.false_eq_true]

end Hogl.Data
