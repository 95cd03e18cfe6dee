import Mathlib.Data.Nat.Bitwise
import Mathlib.Tactic.IntervalCases

namespace Hogl.Data

/-! # Four-bit fields of a word -/

def nibble (word : BitVec 64) (index : Nat) : BitVec 4 := (word >>> (4 * index)).setWidth 4

/-- Merge a field into a word; bits that were already set stay set. -/
def orNibble (word : BitVec 64) (index : Nat) (value : BitVec 4) : BitVec 64 :=
  word ||| (value.setWidth 64 <<< (4 * index))

def clearNibble (word : BitVec 64) (index : Nat) : BitVec 64 :=
  word &&& ~~~(0xf#64 <<< (4 * index))

variable {word : BitVec 64} {index other : Nat} {value : BitVec 4}

theorem nibble_getElem (word : BitVec 64) (index : Nat) {bit : Nat} (bound : bit < 4) :
    (nibble word index)[bit] = word.getLsbD (4 * index + bit) := by
  simp [nibble, BitVec.getElem_setWidth]

@[simp] theorem nibble_zero (index : Nat) : nibble 0 index = 0 := by
  simp [nibble]

theorem nibble_orNibble_same (word : BitVec 64) (value : BitVec 4) (inside : index < 16) :
    nibble (orNibble word index value) index = nibble word index ||| value := by
  apply BitVec.eq_of_getElem_eq
  intro bit bound
  have within : 4 * index + bit < 64 := by omega
  rw [BitVec.getElem_or, nibble_getElem _ _ bound, nibble_getElem _ _ bound, orNibble,
    BitVec.getLsbD_or, BitVec.getLsbD_shiftLeft, Nat.add_sub_cancel_left, BitVec.getLsbD_setWidth,
    BitVec.getLsbD_eq_getElem bound]
  have low : bit < 64 := by omega
  simp [within, low]

theorem nibble_orNibble_other (word : BitVec 64) (value : BitVec 4) (different : other ≠ index) :
    nibble (orNibble word index value) other = nibble word other := by
  apply BitVec.eq_of_getElem_eq
  intro bit bound
  rw [nibble_getElem _ _ bound, nibble_getElem _ _ bound, orNibble, BitVec.getLsbD_or,
    BitVec.getLsbD_shiftLeft, BitVec.getLsbD_setWidth]
  rcases Nat.lt_or_gt_of_ne different with before | later
  · have below : 4 * other + bit < 4 * index := by omega
    simp [below]
  · have above : 4 ≤ 4 * other + bit - 4 * index := by omega
    simp [BitVec.getLsbD_of_ge value _ above]

theorem nibble_clearNibble_same (word : BitVec 64) (inside : index < 16) :
    nibble (clearNibble word index) index = 0 := by
  apply BitVec.eq_of_getElem_eq
  intro bit bound
  have within : 4 * index + bit < 64 := by omega
  have set : (0xf#64).getLsbD bit = true := by
    interval_cases bit <;> rfl
  rw [nibble_getElem _ _ bound, clearNibble, BitVec.getLsbD_and, BitVec.getLsbD_not,
    BitVec.getLsbD_shiftLeft, Nat.add_sub_cancel_left, set]
  simp [within]

theorem nibble_clearNibble_other (word : BitVec 64) (outside : other < 16)
    (different : other ≠ index) :
    nibble (clearNibble word index) other = nibble word other := by
  apply BitVec.eq_of_getElem_eq
  intro bit bound
  have within : 4 * other + bit < 64 := by omega
  rw [nibble_getElem _ _ bound, nibble_getElem _ _ bound, clearNibble, BitVec.getLsbD_and,
    BitVec.getLsbD_not, BitVec.getLsbD_shiftLeft]
  rcases Nat.lt_or_gt_of_ne different with before | later
  · have below : 4 * other + bit < 4 * index := by omega
    simp [within, below]
  · have above : 4 ≤ 4 * other + bit - 4 * index := by omega
    have unset : (0xf#64).getLsbD (4 * other + bit - 4 * index) = false := by
      apply Nat.testBit_eq_false_of_lt
      exact lt_of_lt_of_le (by decide) (Nat.pow_le_pow_right (by decide) above)
    simp [within, unset]

end Hogl.Data
