import Hogl.Format.Xdump

namespace Hogl.Format

open Hogl.Data

/-! # The lines of a dump

A dump shows each of its values once, in lines of `line_width` values or on a
single line.  The loop of the classic dump advances by `line_width` itself and
does not know the single line. -/

/-- The types and widths that `arg_xdump::format` lists. -/
def Documented (format : XdumpFormat) : Prop :=
  (Char.ofNat format.type.toNat = 'H' ∧ format.byteWidth.toNat = 1) ∨
  (Char.ofNat format.type.toNat ∈ ['x', 'd', 'u'] ∧ format.byteWidth.toNat ∈ [1, 2, 4, 8]) ∨
  (Char.ofNat format.type.toNat = 'f' ∧ format.byteWidth.toNat ∈ [4, 8])

instance (format : XdumpFormat) : Decidable (Documented format) :=
  inferInstanceAs (Decidable (_ ∨ _ ∨ _))

def conversionOf (format : XdumpFormat) : String :=
  if Char.ofNat format.type.toNat = 'H' then "%02x " else (xdumpConversion format).getD ""

/-- The values of the data, with the conversion of the format. -/
def formatValues (format : XdumpFormat) (data : List UInt8) : List Piece :=
  valuePieces data (data.length / format.byteWidth.toNat) format.byteWidth.toNat
    (conversionOf format)

section Dumps

variable {format : XdumpFormat} {data : List UInt8}

theorem Documented.width (documented : Documented format) : format.byteWidth.toNat ≠ 0 := by
  intro zero
  rw [Documented, zero] at documented
  obtain ⟨_, width⟩ | ⟨_, width⟩ | ⟨_, width⟩ := documented
  all_goals exact absurd width (by decide)

theorem Documented.conversion (documented : Documented format)
    (numeric : Char.ofNat format.type.toNat ≠ 'H') :
    ∃ conversion, xdumpConversion format = some conversion := by
  obtain ⟨classic, _⟩ | ⟨integer, width⟩ | ⟨float, width⟩ := documented
  · exact absurd classic numeric
  · simp only [List.mem_cons, List.not_mem_nil, or_false] at integer width
    rw [xdumpConversion]
    obtain type | type | type := integer
    all_goals
      rw [type]
      obtain size | size | size | size := width
      all_goals
        rw [size]
        exact ⟨_, rfl⟩
  · simp only [List.mem_cons, List.not_mem_nil, or_false] at width
    rw [xdumpConversion, float]
    obtain size | size := width
    all_goals
      rw [size]
      exact ⟨_, rfl⟩

/-- A dump in a listed format ends and shows its values on their lines, unless
it is a classic dump whose offset never passes the last byte. -/
theorem doXdump_shows_iff (documented : Documented format)
    (short : XdumpFormat.byteSize + data.length < 2 ^ 32) :
    (∃ pieces, doXdump (format.bytes ++ data) = .ok pieces ∧
        shownLines pieces = inLines format.lineWidth.toNat (formatValues format data)) ↔
      ¬ (Char.ofNat format.type.toNat = 'H' ∧
        Unending format.lineWidth.toNat data.length) := by
  rw [doXdump_format format data documented.width]
  by_cases classic : Char.ofNat format.type.toNat = 'H'
  · have single : format.byteWidth.toNat = 1 := by
      obtain ⟨_, width⟩ | ⟨integer, _⟩ | ⟨float, _⟩ := documented
      · exact width
      · rw [classic] at integer
        exact absurd integer (by decide)
      · rw [classic] at float
        exact absurd float (by decide)
    have values : formatValues format data = hexValues data data.length := by
      rw [formatValues, single, Nat.div_one, conversionOf, if_pos classic, hexValues]
    rw [if_pos classic, values, single, Nat.div_one]
    constructor
    · intro shown past
      obtain ⟨pieces, printed, lines⟩ := shown
      obtain ⟨_, unending⟩ := past
      exact hexdumpFrom_fails (Nat.le_refl _) (by omega) unending printed lines
    · intro ends
      exact doHexdump_shows (Nat.le_refl _) fun unending => ends ⟨classic, unending⟩
  · obtain ⟨conversion, known⟩ := documented.conversion classic
    have values : formatValues format data = valuePieces data
        (data.length / format.byteWidth.toNat) format.byteWidth.toNat conversion := by
      rw [formatValues, conversionOf, if_neg classic, known, Option.getD_some]
    rw [if_neg classic, known, values]
    constructor
    · intro _ past
      exact classic past.1
    · intro _
      exact xdumpMulti_shows (Nat.mul_div_le _ _) (xdumpConversion_inside known)

theorem doXdump_shows_three_in_a_line :
    ∃ pieces, doXdump (XdumpFormat.bytes ⟨0x78, 1, 0, 3, 0x2c⟩ ++ [1, 2, 3, 4, 5]) = .ok pieces ∧
      shownLines pieces = inLines 3 (formatValues ⟨0x78, 1, 0, 3, 0x2c⟩ [1, 2, 3, 4, 5]) :=
  (@doXdump_shows_iff ⟨0x78, 1, 0, 3, 0x2c⟩ [1, 2, 3, 4, 5] (by decide) (by decide)).mpr
    (by decide)

/-- A classic dump of one byte on a single line: no number of rounds ends it. -/
theorem single_line_hexdump_hangs :
    Documented ⟨0x48, 1, 2, 0, 0x20⟩ ∧
      (∀ rounds, hexdumpFrom [7] 1 0 rounds 0 = .error .endless) ∧
      ¬ ∃ pieces, doXdump (XdumpFormat.bytes ⟨0x48, 1, 2, 0, 0x20⟩ ++ [7]) = .ok pieces ∧
        shownLines pieces = inLines 0 (formatValues ⟨0x48, 1, 2, 0, 0x20⟩ [7]) := by
  refine ⟨by decide, hexdumpFrom_endless (Nat.le_refl 1) Nat.one_pos, ?_⟩
  intro ⟨pieces, printed, _⟩
  have hangs : doXdump (XdumpFormat.bytes ⟨0x48, 1, 2, 0, 0x20⟩ ++ [7]) = .error .endless := by
    decide
  rw [hangs] at printed
  cases printed

end Dumps

end Hogl.Format
