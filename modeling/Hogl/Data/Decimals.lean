import Hogl.Data.CNumbers

namespace Hogl.Data

/-! # Decimal numbers of a given width

A number is spelled in decimal and filled up with zeros on the left.  Below
the power of ten of its width such a text has exactly that width, and texts of
one width are cut and compared digit by digit. -/

/-- A number in decimal with zeros in front, as `%0Nu` prints it. -/
def padded (width number : Nat) : List UInt8 :=
  List.replicate (width - (spell 10 number).length) 0x30 ++ spell 10 number

/-- The last `width` decimal digits of a number. -/
def lastDigits : Nat → Nat → List UInt8
  | 0, _ => []
  | width + 1, number => lastDigits width (number / 10) ++ [digitChar (number % 10)]

variable {width number : Nat}

@[simp] theorem lastDigits_length (width number : Nat) : (lastDigits width number).length = width := by
  induction width generalizing number with
  | zero => rfl
  | succ width ih => rw [lastDigits, List.length_append, ih, List.length_singleton]

theorem lastDigits_zero (width : Nat) : lastDigits width 0 = List.replicate width 0x30 := by
  induction width with
  | zero => rfl
  | succ width ih =>
      rw [lastDigits, Nat.zero_div, ih, List.replicate_succ']
      rfl

/-- The digits in front and the digits behind, cut at any place. -/
theorem lastDigits_add (front back number : Nat) :
    lastDigits (front + back) number =
      lastDigits front (number / 10 ^ back) ++ lastDigits back number := by
  induction back generalizing number with
  | zero => simp [lastDigits]
  | succ back ih =>
      rw [← Nat.add_assoc, lastDigits, ih, lastDigits, List.append_assoc, Nat.div_div_eq_div_mul,
        Nat.pow_succ']

theorem lastDigits_mod (width number : Nat) :
    lastDigits width (number % 10 ^ width) = lastDigits width number := by
  induction width generalizing number with
  | zero => rfl
  | succ width ih =>
      have front : number % 10 ^ (width + 1) / 10 = number / 10 % 10 ^ width := by
        rw [Nat.pow_succ', Nat.mod_mul_right_div_self]
      have last : number % 10 ^ (width + 1) % 10 = number % 10 :=
        Nat.mod_mod_of_dvd number (Nat.pow_succ' ▸ Nat.dvd_mul_right 10 (10 ^ width))
      rw [lastDigits, lastDigits, front, last, ih]

/-! ## Spelled numbers -/

theorem spell_small (small : number < 10) : spell 10 number = [digitChar number] := by
  rw [spell]
  split
  · rename_i zero
    rw [zero]
    rfl
  · rename_i nonzero
    rw [Nat.digits_of_lt 10 number nonzero small]
    rfl

theorem spell_step (large : 10 ≤ number) :
    spell 10 number = spell 10 (number / 10) ++ [digitChar (number % 10)] := by
  have nonzero : number ≠ 0 := by omega
  have front : number / 10 ≠ 0 := by omega
  rw [spell, if_neg nonzero, spell, if_neg front, Nat.digits_def' (by decide) (by omega),
    List.reverse_cons, List.map_append]
  rfl

theorem spell_length_le (positive : 0 < width) (fits : number < 10 ^ width) :
    (spell 10 number).length ≤ width := by
  rw [spell]
  split
  · exact positive
  · rw [List.length_map, List.length_reverse]
    exact (Nat.digits_length_le_iff (by decide) number).mpr fits

theorem padded_step (width number : Nat) (large : 10 ≤ number) :
    padded (width + 1) number = padded width (number / 10) ++ [digitChar (number % 10)] := by
  rw [padded, spell_step large, List.length_append, List.length_singleton, Nat.add_sub_add_right,
    ← List.append_assoc]
  rfl

theorem padded_eq_lastDigits (positive : 0 < width) (fits : number < 10 ^ width) :
    padded width number = lastDigits width number := by
  induction width generalizing number with
  | zero => exact absurd positive (Nat.lt_irrefl 0)
  | succ width ih =>
      by_cases small : number < 10
      · rw [padded, spell_small small, List.length_singleton, Nat.add_sub_cancel, lastDigits,
          Nat.div_eq_of_lt small, lastDigits_zero, Nat.mod_eq_of_lt small]
      · have room : 0 < width := by
          rcases Nat.eq_zero_or_pos width with rfl | room
          · omega
          · exact room
        have front : number / 10 < 10 ^ width := by
          rw [Nat.pow_succ] at fits
          exact Nat.div_lt_of_lt_mul (by omega)
        rw [padded_step width number (by omega), ih room front, lastDigits]

theorem padded_length (positive : 0 < width) (fits : number < 10 ^ width) :
    (padded width number).length = width := by
  rw [padded_eq_lastDigits positive fits, lastDigits_length]

theorem padded_length_le {limit : Nat} (narrow : width ≤ limit) (positive : 0 < limit)
    (fits : number < 10 ^ limit) : (padded width number).length ≤ limit := by
  have spelled := spell_length_le positive fits
  rw [padded, List.length_append, List.length_replicate]
  omega

theorem padded_wide (enough : width ≤ (spell 10 number).length) :
    padded width number = spell 10 number := by
  rw [padded, Nat.sub_eq_zero_of_le enough]
  rfl

/-- The digits in front and the digits behind are padded numbers again. -/
theorem padded_split {front back : Nat} (some : 0 < front) (more : 0 < back)
    (fits : number < 10 ^ (front + back)) :
    padded (front + back) number =
      padded front (number / 10 ^ back) ++ padded back (number % 10 ^ back) := by
  have high : number / 10 ^ back < 10 ^ front := by
    apply Nat.div_lt_of_lt_mul
    rwa [Nat.pow_add, Nat.mul_comm] at fits
  rw [padded_eq_lastDigits (by omega) fits, lastDigits_add, padded_eq_lastDigits some high,
    padded_eq_lastDigits more (Nat.mod_lt _ (Nat.pow_pos (by decide))), lastDigits_mod]

/-! ## Reading them back -/

theorem lastDigits_digits (width number : Nat) :
    ∀ byte ∈ lastDigits width number, isDigit byte = true := by
  induction width generalizing number with
  | zero => simp [lastDigits]
  | succ width ih =>
      have digit : ∀ value < 10, isDigit (digitChar value) = true := by decide
      intro byte member
      rw [lastDigits, List.mem_append, List.mem_singleton] at member
      rcases member with front | last
      · exact ih (number / 10) byte front
      · rw [last]
        exact digit _ (Nat.mod_lt number (by decide))

theorem digitsNumber_lastDigits (width number : Nat) :
    digitsNumber 10 (lastDigits width number) = number % 10 ^ width := by
  induction width generalizing number with
  | zero => rw [Nat.pow_zero, Nat.mod_one]; rfl
  | succ width ih =>
      have front := ih (number / 10)
      rw [digitsNumber] at front ⊢
      rw [lastDigits, List.foldl_append, front]
      change 10 * (number / 10 % 10 ^ width) + digitValue (digitChar (number % 10)) = _
      rw [digitValue_digitChar (by omega), Nat.pow_succ', Nat.mod_mul]
      omega

/-- A row of decimal digits is converted to its value. -/
theorem strtoul10_lastDigits (positive : 0 < width) (fits : number < 10 ^ width)
    (small : number < 2 ^ 64) : (strtoul10 (lastDigits width number)).value = number := by
  have all := lastDigits_digits width number
  have some : (lastDigits width number).head?.any isDigit = true := by
    cases digits : lastDigits width number with
    | nil =>
        have length := lastDigits_length width number
        rw [digits, List.length_nil] at length
        omega
    | cons first rest =>
        rw [digits] at all
        exact all first List.mem_cons_self
  rw [(strtoul10_digit some).1, leadingNumber, List.takeWhile_eq_self_iff.mpr all,
    digitsNumber_lastDigits, Nat.mod_eq_of_lt fits]
  omega

/-! ## Their order -/

theorem lex_append_of_length {α : Type} {r : α → α → Prop} {first second : List α}
    (less : List.Lex r first second) (same : first.length = second.length) (more other : List α) :
    List.Lex r (first ++ more) (second ++ other) := by
  induction less with
  | nil => cases same
  | cons _ ih => exact List.Lex.cons (ih (Nat.succ.inj same))
  | rel smaller => exact List.Lex.rel smaller

/-- Digits of one width are ordered like the numbers. -/
theorem lastDigits_lt {first second : Nat} (less : first < second) (fits : second < 10 ^ width) :
    lastDigits width first < lastDigits width second := by
  induction width generalizing first second with
  | zero => omega
  | succ width ih =>
      have digits : ∀ low < 10, ∀ high < 10, low < high → digitChar low < digitChar high := by decide
      rw [lastDigits, lastDigits]
      rcases Nat.lt_or_ge (first / 10) (second / 10) with front | same
      · have fronts := ih front (by rw [Nat.pow_succ] at fits; omega)
        exact lex_append_of_length fronts (by simp) _ _
      · have equal : first / 10 = second / 10 := by omega
        rw [equal]
        apply List.Lex.append_left
        exact List.Lex.rel (digits _ (by omega) _ (by omega) (by omega))

end Hogl.Data
