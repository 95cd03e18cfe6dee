import Hogl.Format.Basic

namespace Hogl.Format

open Hogl.Data

/-! # The loops of a dump

What the loops of `do_hexdump`, `xdump_single` and `xdump_multi` print: the
conversions of the values, line by line.  A line is what follows one of the
starts that the loops print; a delimiter ends none, whatever its character. -/

/-- The piece that starts a line, in a classic dump with its offset. -/
def Piece.startsLine : Piece → Bool
  | .text bytes => bytes == ascii "\n\t"
  | .conversion format _ => format == "\n\t%03d: "
  | _ => false

/-- The conversion of a value. -/
def Piece.shown : Piece → List Piece
  | .conversion format value => [.conversion format value]
  | _ => []

/-- The conversions on each line, the first one begun with `line`. -/
def linesOf (line : List Piece) : List Piece → List (List Piece)
  | [] => [line]
  | piece :: rest =>
      if piece.startsLine then line :: linesOf [] rest else linesOf (line ++ piece.shown) rest

/-- The lines that show a value. -/
def shownLines (pieces : List Piece) : List (List Piece) :=
  (linesOf [] pieces).filter fun line => line ≠ []

/-- Items in lines of `lineWidth`, the last one possibly shorter; a width of
zero stands for a single line. -/
def inLines {α : Type} (lineWidth : Nat) (items : List α) : List (List α) :=
  if items = [] then []
  else if lineWidth = 0 then [items]
  else items.take lineWidth :: inLines lineWidth (items.drop lineWidth)
termination_by items.length
decreasing_by
  rename_i some wide
  have length := List.length_pos_iff.mpr some
  rw [List.length_drop]
  omega

/-- The values of a dump, each with its conversion. -/
def valuePieces (data : List UInt8) (count width : Nat) (conversion : String) : List Piece :=
  (List.range count).map fun index => .conversion conversion (readAt data (width * index) width)

section Lines

variable {α : Type} {lineWidth : Nat}

theorem inLines_ne_nil (items : List α) : ∀ line ∈ inLines lineWidth items, line ≠ [] := by
  induction items using inLines.induct lineWidth with
  | case1 =>
      intro line none
      rw [inLines, if_pos rfl] at none
      cases none
  | case2 items some zero =>
      intro line only
      rw [inLines, if_neg some, if_pos zero, List.mem_singleton] at only
      rw [only]
      exact some
  | case3 items some wide ih =>
      intro line member
      rw [inLines, if_neg some, if_neg wide] at member
      rcases List.mem_cons.mp member with rfl | behind
      · rw [Ne, List.take_eq_nil_iff]
        exact not_or.mpr ⟨wide, some⟩
      · exact ih line behind

/-- Nothing is lost or repeated between the lines. -/
theorem inLines_flatten (items : List α) : (inLines lineWidth items).flatten = items := by
  induction items using inLines.induct lineWidth with
  | case1 => rw [inLines, if_pos rfl, List.flatten_nil]
  | case2 items some zero => rw [inLines, if_neg some, if_pos zero, List.flatten_singleton]
  | case3 items some wide ih =>
      rw [inLines, if_neg some, if_neg wide, List.flatten_cons, ih, List.take_append_drop]

theorem inLines_drop {items : List α} {index : Nat} (wide : 0 < lineWidth)
    (more : index < items.length) :
    inLines lineWidth (items.drop index) =
      (items.drop index).take lineWidth :: inLines lineWidth (items.drop (index + lineWidth)) := by
  have some : items.drop index ≠ [] := by
    rw [Ne, List.drop_eq_nil_iff]
    omega
  rw [inLines, if_neg some, if_neg (Nat.ne_of_gt wide), List.drop_drop]

end Lines

/-- The pieces go on with a line by these conversions. -/
def Adds (pieces shown : List Piece) : Prop :=
  ∀ line rest, linesOf line (pieces ++ rest) = linesOf (line ++ shown) rest

section Adding

variable {pieces others shown more : List Piece} {piece : Piece}

theorem Adds.nil : Adds [] [] := fun line rest => by rw [List.append_nil]; rfl

theorem Adds.append (first : Adds pieces shown) (second : Adds others more) :
    Adds (pieces ++ others) (shown ++ more) := by
  intro line rest
  rw [List.append_assoc, first, second, List.append_assoc]

theorem Adds.cons (inside : piece.startsLine = false) (rest : Adds pieces shown) :
    Adds (piece :: pieces) (piece.shown ++ shown) := by
  intro line more
  rw [List.cons_append, linesOf, if_neg (by rw [inside]; decide), rest, List.append_assoc]

/-- Pieces that start no line add what each of them shows. -/
theorem Adds.each (inside : ∀ piece ∈ pieces, piece.startsLine = false) :
    Adds pieces (pieces.flatMap Piece.shown) := by
  induction pieces with
  | nil => exact .nil
  | cons piece rest ih =>
      obtain ⟨here, others⟩ := List.forall_mem_cons.mp inside
      exact .cons here (ih others)

/-- Texts that show nothing. -/
theorem Adds.texts (quiet : ∀ piece ∈ pieces, piece.startsLine = false ∧ piece.shown = []) :
    Adds pieces [] := by
  have each := Adds.each fun piece member => (quiet piece member).1
  rwa [List.flatMap_eq_nil_iff.mpr fun piece member => (quiet piece member).2] at each

/-- A start is longer than one character. -/
theorem text_inside {bytes : List UInt8} (short : bytes.length ≤ 1) :
    (Piece.text bytes).startsLine = false := by
  have other : bytes ≠ ascii "\n\t" := by
    intro same
    rw [same] at short
    exact absurd short (by decide)
  exact beq_false_of_ne other

theorem linesOf_adds (adds : Adds pieces shown) (line : List Piece) :
    linesOf line pieces = [line ++ shown] := by
  have whole := adds line []
  rwa [List.append_nil] at whole

theorem linesOf_start (starts : piece.startsLine = true) (adds : Adds pieces shown)
    (line rest : List Piece) :
    linesOf line (piece :: pieces ++ rest) = line :: linesOf shown rest := by
  rw [List.cons_append, linesOf, if_pos starts, adds]
  rfl

theorem shownLines_eq {values : List Piece} {lineWidth : Nat}
    (lines : linesOf [] pieces = [] :: inLines lineWidth values) :
    shownLines pieces = inLines lineWidth values := by
  rw [shownLines, lines, List.filter_cons_of_neg (by simp), List.filter_eq_self]
  intro line member
  exact decide_eq_true (inLines_ne_nil values line member)

theorem shownLines_flatten (pieces : List Piece) :
    (shownLines pieces).flatten = (linesOf [] pieces).flatten := List.flatten_filter_ne_nil

/-- A line is not shortened by what is printed behind it. -/
theorem le_length_linesOf (line pieces : List Piece) :
    line.length ≤ (linesOf line pieces).flatten.length := by
  induction pieces generalizing line with
  | nil => rw [linesOf, List.flatten_singleton]
  | cons piece rest ih =>
      rw [linesOf]
      split
      · rw [List.flatten_cons, List.length_append]
        omega
      · have longer := ih (line ++ piece.shown)
        rw [List.length_append] at longer
        omega

end Adding

section Values

variable {data : List UInt8} {count width index lineWidth : Nat} {conversion : String}

theorem load_ok {offset : Nat} (inside : offset + width ≤ data.length) :
    load data offset width = .ok (readAt data offset width) := if_pos inside

theorem printValue_ok (whole : width * count ≤ data.length) (inside : index < count) :
    printValue data width conversion index =
      .ok (.conversion conversion (readAt data (width * index) width)) := by
  have within : width * index + width ≤ data.length := by
    refine Nat.le_trans ?_ whole
    rw [← Nat.mul_succ]
    exact Nat.mul_le_mul_left width inside
  rw [printValue, load_ok within]
  rfl

@[simp] theorem valuePieces_length :
    (valuePieces data count width conversion).length = count := by simp [valuePieces]

theorem valuePieces_drop (more : index < count) :
    (valuePieces data count width conversion).drop index =
      .conversion conversion (readAt data (width * index) width) ::
        (valuePieces data count width conversion).drop (index + 1) := by
  rw [List.drop_eq_getElem_cons (by rw [valuePieces_length]; exact more)]
  simp [valuePieces]

theorem valuePieces_drop_end (behind : count ≤ index) :
    (valuePieces data count width conversion).drop index = [] :=
  List.drop_eq_nil_of_le (by rw [valuePieces_length]; exact behind)

end Values

/-! ## The loops of the numeric types -/

section Numbers

variable {data : List UInt8} {count width index rounds : Nat} {conversion : String}
  {delim : UInt8} {format : XdumpFormat}

/-- A conversion that is not taken for the start of a line. -/
def Inside (conversion : String) : Prop := conversion ≠ "\n\t%03d: "

theorem Inside.value (inside : Inside conversion) (value : List UInt8) :
    (Piece.conversion conversion value).startsLine = false := beq_false_of_ne inside

/-- A delimiter and the value behind it. -/
theorem Adds.next (inside : Inside conversion) (value : List UInt8) {pieces shown : List Piece}
    (rest : Adds pieces shown) :
    Adds (.text [delim] :: .conversion conversion value :: pieces)
      (.conversion conversion value :: shown) :=
  .cons (text_inside (Nat.le_refl 1)) (.cons (inside.value value) rest)

theorem singleLoop_shows (whole : width * count ≤ data.length) (inside : Inside conversion)
    (enough : count ≤ index + rounds) :
    ∃ pieces, singleLoop data count width conversion delim rounds index = .ok pieces ∧
      Adds pieces ((valuePieces data count width conversion).drop index) := by
  induction rounds generalizing index with
  | zero =>
      refine ⟨[], if_neg (by omega), ?_⟩
      rw [valuePieces_drop_end (by omega)]
      exact .nil
  | succ rounds ih =>
      by_cases more : index < count
      · obtain ⟨rest, restEq, adds⟩ := @ih (index + 1) (by omega)
        refine ⟨_, by
          simp only [singleLoop, more, if_true, printValue_ok whole more, restEq]; rfl, ?_⟩
        rw [valuePieces_drop more]
        exact adds.next inside _
      · refine ⟨[], by simp only [singleLoop, more, if_false], ?_⟩
        rw [valuePieces_drop_end (by omega)]
        exact .nil

/-- A line goes on for as many values as it has room for. -/
theorem lineLoop_shows (whole : width * count ≤ data.length) (inside : Inside conversion)
    (start : index ≤ count) (room : Nat) :
    ∃ pieces, lineLoop data count width conversion delim room index =
        .ok (pieces, min (index + room) count) ∧
      Adds pieces (((valuePieces data count width conversion).drop index).take room) := by
  induction room generalizing index with
  | zero =>
      refine ⟨[], by rw [lineLoop, Nat.add_zero, Nat.min_eq_left start], ?_⟩
      rw [List.take_zero]
      exact .nil
  | succ room ih =>
      by_cases more : index < count
      · obtain ⟨rest, restEq, adds⟩ := @ih (index + 1) more
        rw [Nat.add_right_comm] at restEq
        refine ⟨_, by
          simp only [lineLoop, more, if_true, printValue_ok whole more, restEq]; rfl, ?_⟩
        rw [valuePieces_drop more, List.take_succ_cons]
        exact adds.next inside _
      · refine ⟨[], ?_, ?_⟩
        · simp only [lineLoop, more, if_false]
          congr 2
          omega
        · rw [valuePieces_drop_end (by omega), List.take_nil]
          exact .nil

theorem multiLoop_shows (whole : width * count ≤ data.length) (inside : Inside conversion)
    (wide : 0 < format.lineWidth.toNat) (enough : count ≤ index + rounds) :
    ∃ pieces, multiLoop data count width conversion format rounds index = .ok pieces ∧
      ∀ line, linesOf line pieces = line :: inLines format.lineWidth.toNat
        ((valuePieces data count width conversion).drop index) := by
  have finished (position : Nat) (behind : count ≤ position) (line : List Piece) :
      linesOf line [] = line :: inLines format.lineWidth.toNat
        ((valuePieces data count width conversion).drop position) := by
    rw [valuePieces_drop_end behind, inLines, if_pos rfl, linesOf]
  induction rounds generalizing index with
  | zero => exact ⟨[], if_neg (by omega), finished index enough⟩
  | succ rounds ih =>
      by_cases more : index < count
      · obtain ⟨line, lineEq, adds⟩ := @lineLoop_shows data count width
          (index + 1) conversion format.delim whole inside more (format.lineWidth.toNat - 1)
        obtain ⟨rest, restEq, behind⟩ :=
          @ih (min (index + 1 + (format.lineWidth.toNat - 1)) count) (by omega)
        refine ⟨_, by
          simp only [multiLoop, more, if_true, printValue_ok whole more, lineEq, bind, Except.bind,
            restEq]
          rfl, fun before => ?_⟩
        have first := Adds.cons (inside.value (readAt data (width * index) width)) adds
        have starts : (Piece.text (ascii "\n\t")).startsLine = true := rfl
        have filled : ((valuePieces data count width conversion).drop index).take
              format.lineWidth.toNat =
            .conversion conversion (readAt data (width * index) width) ::
              ((valuePieces data count width conversion).drop (index + 1)).take
                (format.lineWidth.toNat - 1) := by
          rw [valuePieces_drop more, ← List.take_succ_cons, Nat.sub_add_cancel wide]
        have stop : (valuePieces data count width conversion).drop
              (min (index + 1 + (format.lineWidth.toNat - 1)) count) =
            (valuePieces data count width conversion).drop (index + format.lineWidth.toNat) := by
          have same : index + 1 + (format.lineWidth.toNat - 1) = index + format.lineWidth.toNat := by
            omega
          rw [same]
          rcases Nat.le_total (index + format.lineWidth.toNat) count with short | long
          · rw [Nat.min_eq_left short]
          · rw [Nat.min_eq_right long, valuePieces_drop_end (Nat.le_refl _),
              valuePieces_drop_end long]
        have unread : index < (valuePieces data count width conversion).length := by
          rw [valuePieces_length]
          exact more
        rw [inLines_drop wide unread, filled, ← stop, ← behind]
        exact linesOf_start starts first before rest
      · exact ⟨[], by simp only [multiLoop, more, if_false], finished index (by omega)⟩

/-- The values of a numeric dump, on their lines. -/
theorem xdumpMulti_shows (whole : width * count ≤ data.length) (inside : Inside conversion) :
    ∃ pieces, xdumpMulti data count width conversion format = .ok pieces ∧
      shownLines pieces =
        inLines format.lineWidth.toNat (valuePieces data count width conversion) := by
  unfold xdumpMulti
  split
  next none =>
    subst none
    refine ⟨[], rfl, ?_⟩
    rw [valuePieces, List.range_zero, List.map_nil, inLines, if_pos rfl]
    rfl
  next some =>
    split
    next narrow =>
      obtain ⟨rest, restEq, adds⟩ := @singleLoop_shows data count width 1 count conversion
        format.delim whole inside (by omega)
      have first := Adds.cons (inside.value (readAt data (width * 0) width)) adds
      have values := @valuePieces_drop data count width 0 conversion (by omega)
      rw [List.drop_zero] at values
      refine ⟨_, by
        simp only [xdumpSingle, printValue_ok whole (show 0 < count by omega), restEq, bind,
          Except.bind]
        rfl, ?_⟩
      have shown : valuePieces data count width conversion ≠ [] := by
        rw [values]
        exact List.cons_ne_nil _ _
      have zero : format.lineWidth.toNat = 0 := by rw [narrow]; rfl
      have line := linesOf_adds first []
      rw [List.nil_append, Piece.shown, List.singleton_append, ← values] at line
      rw [shownLines, line, inLines, if_neg shown, if_pos zero, List.filter_cons_of_pos]
      · rfl
      · exact decide_eq_true shown
    next wide =>
      have positive : 0 < format.lineWidth.toNat :=
        Nat.pos_of_ne_zero fun zero => wide (UInt8.toNat_inj.mp zero)
      obtain ⟨pieces, printed, lines⟩ :=
        @multiLoop_shows data count width 0 count conversion format whole inside positive (by omega)
      exact ⟨pieces, printed, shownLines_eq (lines [])⟩

end Numbers

end Hogl.Format
