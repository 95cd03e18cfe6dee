import Hogl.Format.DumpLoops
import Mathlib.Data.List.TakeWhile

namespace Hogl.Format

open Hogl.Data

/-! # The classic dump

A line of `do_hexdump` shows the bytes at its columns.  The offset is an
`unsigned int`: where a line would end past its range, the columns start again
at the first byte. -/

section Traversal

variable {α β ε : Type}

theorem mapM_eq_map {f : α → Except ε β} (result : α → β) {items : List α}
    (each : ∀ item ∈ items, f item = .ok (result item)) :
    items.mapM f = .ok (items.map result) := by
  induction items with
  | nil => rfl
  | cons item items ih =>
      obtain ⟨first, others⟩ := List.forall_mem_cons.mp each
      simp only [List.mapM_cons, first, ih others]
      rfl

end Traversal

variable {data : List UInt8} {count lineWidth offset lines row : Nat}

def byteCell (data : List UInt8) (count index : Nat) : Piece :=
  if index < count then .conversion "%02x " (readAt data index 1) else .text (ascii "   ")

def charCell (data : List UInt8) (index : Nat) : Piece :=
  .text (if (readAt data index 1).all isPrint then readAt data index 1 else ascii ".")

/-- The line at an offset, behind its start. -/
def hexCells (data : List UInt8) (count lineWidth offset : Nat) : List Piece :=
  (List.range lineWidth).map (fun column => byteCell data count ((column + offset) % 2 ^ 32)) ++
    .text (ascii "  ") ::
      ((List.range lineWidth).takeWhile fun column => (column + offset) % 2 ^ 32 < count).map
        fun column => charCell data ((column + offset) % 2 ^ 32)

/-- The bytes on this line, by their columns. -/
def hexShown (data : List UInt8) (count lineWidth offset : Nat) : List Piece :=
  (List.range lineWidth).flatMap fun column =>
    (byteCell data count ((column + offset) % 2 ^ 32)).shown

/-- The bytes of a classic dump. -/
def hexValues (data : List UInt8) (count : Nat) : List Piece := valuePieces data count 1 "%02x "

theorem hexdumpLine_eq (inside : count ≤ data.length) (lineWidth offset : Nat) :
    hexdumpLine data count lineWidth offset =
      .ok (.conversion "\n\t%03d: " (leBytes 4 offset) ::
        hexCells data count lineWidth offset) := by
  have loaded (index : Nat) (within : index < count) :
      load data index 1 = .ok (readAt data index 1) := load_ok (by omega)
  rw [hexdumpLine, mapM_eq_map fun column => byteCell data count ((column + offset) % 2 ^ 32),
    mapM_eq_map fun column => charCell data ((column + offset) % 2 ^ 32)]
  · rfl
  · intro column member
    have within : (column + offset) % 2 ^ 32 < count := by
      simpa using List.mem_takeWhile_imp member
    rw [loaded _ within]
    rfl
  · intro column _
    split
    next within =>
      rw [loaded _ within, byteCell, if_pos within]
      rfl
    next behind => rw [byteCell, if_neg behind]; rfl

theorem hexCells_adds (data : List UInt8) (count lineWidth offset : Nat) :
    Adds (hexCells data count lineWidth offset) (hexShown data count lineWidth offset) := by
  have bytes : Adds ((List.range lineWidth).map fun column =>
      byteCell data count ((column + offset) % 2 ^ 32)) (hexShown data count lineWidth offset) := by
    rw [hexShown, ← List.flatMap_map]
    apply Adds.each
    intro piece member
    obtain ⟨column, _, rfl⟩ := List.mem_map.mp member
    rw [byteCell]
    split <;> rfl
  have chars : Adds (((List.range lineWidth).takeWhile fun column =>
      (column + offset) % 2 ^ 32 < count).map
        fun column => charCell data ((column + offset) % 2 ^ 32)) [] := by
    apply Adds.texts
    intro piece member
    obtain ⟨column, _, rfl⟩ := List.mem_map.mp member
    refine ⟨?_, rfl⟩
    rw [charCell]
    split
    · exact text_inside (by rw [readAt, List.length_take]; omega)
    · exact text_inside (Nat.le_refl 1)
  have blank : (Piece.text (ascii "  ")).startsLine = false := rfl
  have whole := bytes.append (Adds.cons blank chars)
  have silent : (Piece.text (ascii "  ")).shown = [] := rfl
  rwa [silent, List.nil_append, List.append_nil] at whole

/-- One round of the line loop. -/
theorem hexdumpFrom_succ (inside : count ≤ data.length) (more : offset < count) :
    hexdumpFrom data count lineWidth (lines + 1) offset =
      (hexdumpFrom data count lineWidth lines ((offset + lineWidth) % 2 ^ 32)).map fun rest =>
        .conversion "\n\t%03d: " (leBytes 4 offset) :: hexCells data count lineWidth offset ++
          rest := by
  rw [hexdumpFrom, if_pos more, hexdumpLine_eq inside]
  rfl

theorem linesOf_hexCells (line rest : List Piece) :
    linesOf line (.conversion "\n\t%03d: " (leBytes 4 offset) ::
        hexCells data count lineWidth offset ++ rest) =
      line :: linesOf (hexShown data count lineWidth offset) rest :=
  linesOf_start rfl (hexCells_adds data count lineWidth offset) line rest

/-! ## Lines within the range of the offset -/

theorem hexShown_succ : hexShown data count (lineWidth + 1) offset =
    hexShown data count lineWidth offset ++
      (byteCell data count ((lineWidth + offset) % 2 ^ 32)).shown := by
  rw [hexShown, List.range_succ, List.flatMap_append, List.flatMap_singleton, hexShown]

/-- A line that does not wrap shows the bytes from its offset on. -/
theorem hexShown_eq (unwrapped : offset + lineWidth ≤ 2 ^ 32) :
    hexShown data count lineWidth offset = ((hexValues data count).drop offset).take lineWidth := by
  induction lineWidth with
  | zero => rw [List.take_zero]; rfl
  | succ lineWidth ih =>
      have column : (lineWidth + offset) % 2 ^ 32 = offset + lineWidth := by omega
      rw [hexShown_succ, ih (by omega), column, List.take_add_one, List.getElem?_drop, byteCell]
      congr 1
      by_cases within : offset + lineWidth < count
      · simp [within, hexValues, valuePieces, Piece.shown]
      · simp [within, hexValues, valuePieces, Piece.shown]

/-- A line that starts in front of the end is one of those that are needed. -/
theorem rows_bound (wide : 0 < lineWidth) (more : lineWidth * row < count) :
    lineWidth * row + lineWidth ≤ lineWidth * ((count + lineWidth - 1) / lineWidth) := by
  rw [← Nat.mul_succ]
  apply Nat.mul_le_mul_left
  rw [Nat.le_div_iff_mul_le wide, Nat.succ_mul, Nat.mul_comm row]
  omega

theorem rows_last (wide : 0 < lineWidth) (behind : count ≤ lineWidth * row + lineWidth) :
    lineWidth * ((count + lineWidth - 1) / lineWidth) ≤ lineWidth * row + lineWidth := by
  rw [← Nat.mul_succ]
  apply Nat.mul_le_mul_left
  rw [← Nat.lt_succ_iff, Nat.div_lt_iff_lt_mul wide, Nat.succ_mul, Nat.succ_mul, Nat.mul_comm row]
  omega

theorem hexdumpFrom_shows (inside : count ≤ data.length) (wide : 0 < lineWidth)
    (fits : lineWidth * ((count + lineWidth - 1) / lineWidth) < 2 ^ 32)
    (enough : count ≤ lineWidth * row + lines) :
    ∃ pieces, hexdumpFrom data count lineWidth lines (lineWidth * row) = .ok pieces ∧
      ∀ line, linesOf line pieces =
        line :: inLines lineWidth ((hexValues data count).drop (lineWidth * row)) := by
  have finished (offset : Nat) (behind : count ≤ offset) (line : List Piece) :
      linesOf line [] = line :: inLines lineWidth ((hexValues data count).drop offset) := by
    rw [hexValues, valuePieces_drop_end behind, inLines, if_pos rfl, linesOf]
  induction lines generalizing row with
  | zero => exact ⟨[], if_neg (by omega), finished _ enough⟩
  | succ lines ih =>
      by_cases more : lineWidth * row < count
      · have bound := rows_bound wide more
        have next : (lineWidth * row + lineWidth) % 2 ^ 32 = lineWidth * (row + 1) := by
          rw [Nat.mod_eq_of_lt (by omega), Nat.mul_succ]
        have unread : lineWidth * row < (hexValues data count).length := by
          rw [hexValues, valuePieces_length]
          exact more
        obtain ⟨rest, restEq, behind⟩ := @ih (row + 1) (by rw [Nat.mul_succ]; omega)
        refine ⟨_, by rw [hexdumpFrom_succ inside more, next, restEq]; rfl, fun line => ?_⟩
        rw [linesOf_hexCells, behind, hexShown_eq (by omega), inLines_drop wide unread,
          Nat.mul_succ]
      · exact ⟨[], by simp only [hexdumpFrom, more, if_false], finished _ (by omega)⟩

/-! ## Lines past the range of the offset -/

theorem hexShown_length_mono {narrow : Nat} (narrower : narrow ≤ lineWidth) :
    (hexShown data count narrow offset).length ≤ (hexShown data count lineWidth offset).length := by
  induction narrower with
  | refl => exact Nat.le_refl _
  | step _ ih =>
      rw [hexShown_succ, List.length_append]
      omega

theorem hexShown_length (unwrapped : offset + lineWidth ≤ 2 ^ 32) :
    (hexShown data count lineWidth offset).length = min lineWidth (count - offset) := by
  rw [hexShown_eq unwrapped, List.length_take, List.length_drop, hexValues, valuePieces_length]

/-- Behind the last offset the line goes on with the first byte. -/
theorem hexShown_wraps (more : offset < count) (short : count < 2 ^ 32)
    (wraps : 2 ^ 32 < offset + lineWidth) :
    count - offset + 1 ≤ (hexShown data count lineWidth offset).length := by
  have front : (hexShown data count (2 ^ 32 - offset) offset).length = count - offset := by
    rw [hexShown_length (by omega)]
    omega
  have again : (2 ^ 32 - offset + offset) % 2 ^ 32 = 0 := by
    rw [Nat.sub_add_cancel (by omega), Nat.mod_self]
  have repeated : (hexShown data count (2 ^ 32 - offset + 1) offset).length = count - offset + 1 := by
    rw [hexShown_succ, List.length_append, front, again, byteCell, if_pos (by omega)]
    rfl
  rw [← repeated]
  exact hexShown_length_mono (by omega)

theorem hexdumpFrom_returned {pieces : List Piece} (inside : count ≤ data.length)
    (more : offset < count) (printed : hexdumpFrom data count lineWidth lines offset = .ok pieces) :
    ∃ fewer rest, lines = fewer + 1 ∧
      hexdumpFrom data count lineWidth fewer ((offset + lineWidth) % 2 ^ 32) = .ok rest ∧
      ∀ line, linesOf line pieces = line :: linesOf (hexShown data count lineWidth offset) rest := by
  cases lines with
  | zero =>
      rw [hexdumpFrom, if_pos more] at printed
      cases printed
  | succ fewer =>
      rw [hexdumpFrom_succ inside more] at printed
      cases behind : hexdumpFrom data count lineWidth fewer ((offset + lineWidth) % 2 ^ 32) with
      | error stop =>
          rw [behind] at printed
          cases printed
      | ok rest =>
          rw [behind] at printed
          cases printed
          exact ⟨fewer, rest, rfl, behind, fun line => linesOf_hexCells line rest⟩

/-- The dump shows at least what its next line shows. -/
theorem hexdumpFrom_line {pieces : List Piece} (inside : count ≤ data.length)
    (more : offset < count) (printed : hexdumpFrom data count lineWidth lines offset = .ok pieces)
    (line : List Piece) :
    line.length + (hexShown data count lineWidth offset).length ≤
      (linesOf line pieces).flatten.length := by
  obtain ⟨fewer, rest, _, _, shown⟩ := hexdumpFrom_returned inside more printed
  rw [shown, List.flatten_cons, List.length_append]
  exact Nat.add_le_add_left (le_length_linesOf _ rest) _

/-- Where the lines that are needed pass the range of the offset, a value is
shown again. -/
theorem hexdumpFrom_repeats {pieces : List Piece} (inside : count ≤ data.length)
    (short : count < 2 ^ 32) (wide : 0 < lineWidth)
    (past : 2 ^ 32 ≤ lineWidth * ((count + lineWidth - 1) / lineWidth))
    (more : lineWidth * row < count)
    (printed : hexdumpFrom data count lineWidth lines (lineWidth * row) = .ok pieces)
    (line : List Piece) :
    line.length + (count - lineWidth * row) + 1 ≤ (linesOf line pieces).flatten.length := by
  induction lines generalizing row pieces line with
  | zero =>
      obtain ⟨fewer, _, none, _⟩ := hexdumpFrom_returned inside more printed
      cases none
  | succ lines ih =>
      obtain ⟨fewer, rest, same, next, shown⟩ := hexdumpFrom_returned inside more printed
      cases same
      rw [shown, List.flatten_cons, List.length_append]
      by_cases further : lineWidth * row + lineWidth < count
      · -- a full line, and the lines behind it
        rw [Nat.mod_eq_of_lt (by omega), ← Nat.mul_succ] at next
        have behind := ih (by rw [Nat.mul_succ]; exact further) next
          (hexShown data count lineWidth (lineWidth * row))
        rw [hexShown_length (by omega), Nat.mul_succ] at behind
        omega
      · have last := rows_last wide (Nat.le_of_not_lt further)
        rcases Nat.eq_or_lt_of_le (Nat.le_trans past last) with ends | wraps
        · -- the next line starts at the first byte
          rw [← ends, Nat.mod_self] at next
          have again := hexdumpFrom_line inside (by omega) next
            (hexShown data count lineWidth (lineWidth * row))
          rw [hexShown_length (by omega), hexShown_length (by omega)] at again
          omega
        · -- this line goes on with the first byte
          have again := @hexShown_wraps data _ _ _ more short wraps
          have kept := le_length_linesOf (hexShown data count lineWidth (lineWidth * row)) rest
          omega

/-- Lines of no bytes do not reach the end. -/
theorem hexdumpFrom_endless (inside : count ≤ data.length) (nonempty : 0 < count) (lines : Nat) :
    hexdumpFrom data count 0 lines 0 = .error .endless := by
  induction lines with
  | zero => exact if_pos nonempty
  | succ lines ih =>
      rw [hexdumpFrom_succ inside nonempty, Nat.add_zero, Nat.zero_mod, ih]
      rfl

/-- The offset never passes the last byte: the lines have no width, or those
that are needed do not fit in the range of the offset. -/
def Unending (lineWidth count : Nat) : Prop :=
  0 < count ∧ (lineWidth = 0 ∨ 2 ^ 32 ≤ lineWidth * ((count + lineWidth - 1) / lineWidth))

instance (lineWidth count : Nat) : Decidable (Unending lineWidth count) :=
  inferInstanceAs (Decidable (_ ∧ _))

theorem doHexdump_shows {format : XdumpFormat} (inside : count ≤ data.length)
    (ends : ¬ Unending format.lineWidth.toNat count) :
    ∃ pieces, doHexdump data count format = .ok pieces ∧
      shownLines pieces = inLines format.lineWidth.toNat (hexValues data count) := by
  rcases Nat.eq_zero_or_pos count with rfl | nonempty
  · refine ⟨[], rfl, ?_⟩
    rw [hexValues, valuePieces, List.range_zero, List.map_nil, inLines, if_pos rfl]
    rfl
  · obtain ⟨wide, fits⟩ := not_or.mp fun reason => ends ⟨nonempty, reason⟩
    obtain ⟨pieces, printed, lines⟩ := @hexdumpFrom_shows data _ _ count 0 inside
      (Nat.pos_of_ne_zero wide) (Nat.lt_of_not_le fits) (by omega)
    exact ⟨pieces, printed, shownLines_eq (lines [])⟩

/-- No number of rounds ends such a dump with the bytes on their lines. -/
theorem hexdumpFrom_fails {pieces : List Piece} (inside : count ≤ data.length)
    (short : count < 2 ^ 32) (unending : Unending lineWidth count)
    (printed : hexdumpFrom data count lineWidth lines 0 = .ok pieces) :
    shownLines pieces ≠ inLines lineWidth (hexValues data count) := by
  intro shown
  obtain ⟨nonempty, narrow | past⟩ := unending
  · rw [narrow, hexdumpFrom_endless inside nonempty] at printed
    cases printed
  · have wide : 0 < lineWidth := by
      apply Nat.pos_of_ne_zero
      intro zero
      rw [zero, Nat.zero_mul] at past
      exact absurd past (by decide)
    have repeated := @hexdumpFrom_repeats data _ _ _ 0 _ inside short wide past nonempty printed []
    have total := congrArg (fun shown => shown.flatten.length) shown
    simp only [inLines_flatten, hexValues, valuePieces_length, shownLines_flatten] at total
    rw [List.length_nil] at repeated
    omega

end Hogl.Format
