import Mathlib.Data.List.Basic

namespace Hogl.Data

/-! # Bits in an array of words

A set of small numbers is often kept as an array of machine words, with the
number `bit` standing for one bit of the word `bit / width`. -/

variable {width : Nat}

/-- The word with one bit set. -/
def bitOf (width bit : Nat) : BitVec width := BitVec.ofNat width 1 <<< (bit % width)

def testBit (words : List (BitVec width)) (bit : Nat) : Bool :=
  words.getD (bit / width) (BitVec.ofNat width 0) &&& bitOf width bit != BitVec.ofNat width 0

def setBit (words : List (BitVec width)) (bit : Nat) (value : Bool) : List (BitVec width) :=
  words.modify (bit / width) fun word =>
    if value then word ||| bitOf width bit else word &&& ~~~bitOf width bit

@[simp] theorem setBit_length (words : List (BitVec width)) (bit : Nat) (value : Bool) :
    (setBit words bit value).length = words.length :=
  List.length_modify _ _ _

theorem getLsbD_bitOf (positive : 0 < width) (bit index : Nat) :
    (bitOf width bit).getLsbD index = decide (bit % width = index) := by
  have small := Nat.mod_lt bit positive
  rw [bitOf, ← BitVec.twoPow_eq, BitVec.getLsbD_twoPow]
  simp [small]

theorem and_bitOf_ne_zero (positive : 0 < width) (word : BitVec width) (bit : Nat) :
    (word &&& bitOf width bit != BitVec.ofNat width 0) = word.getLsbD (bit % width) := by
  have small := Nat.mod_lt bit positive
  rw [Bool.eq_iff_iff, bne_iff_ne]
  constructor
  · intro nonzero
    by_contra clear
    apply nonzero
    apply BitVec.eq_of_getLsbD_eq
    intro index _
    rw [BitVec.getLsbD_and, getLsbD_bitOf positive, BitVec.getLsbD_zero]
    by_cases same : bit % width = index
    · rw [← same]
      simpa using clear
    · simp [same]
  · intro set zero
    have clear := congrArg (fun value => value.getLsbD (bit % width)) zero
    simp only [BitVec.getLsbD_and, getLsbD_bitOf positive, set] at clear
    simp at clear

theorem testBit_eq (positive : 0 < width) (words : List (BitVec width)) (bit : Nat) :
    testBit words bit = (words.getD (bit / width) (BitVec.ofNat width 0)).getLsbD (bit % width) :=
  and_bitOf_ne_zero positive _ bit

theorem testBit_setBit (positive : 0 < width) {words : List (BitVec width)} {bit : Nat}
    (inside : bit < width * words.length) (value : Bool) (other : Nat) :
    testBit (setBit words bit value) other = if other = bit then value else testBit words other := by
  have word : bit / width < words.length := Nat.div_lt_of_lt_mul inside
  have whole := Nat.div_add_mod other width
  have whole' := Nat.div_add_mod bit width
  rw [testBit_eq positive, testBit_eq positive, setBit, List.getD_eq_getElem?_getD,
    List.getElem?_modify, List.getD_eq_getElem?_getD]
  by_cases same : bit / width = other / width
  · have present : words[other / width]? = some words[other / width] :=
      List.getElem?_eq_getElem (same ▸ word)
    simp only [same, if_true, present, Option.map_eq_map, Option.map_some, Option.getD_some]
    have bits : bit % width = other % width ↔ other = bit := by
      constructor
      · intro equal
        rw [← whole, ← whole', same, equal]
      · intro equal
        rw [equal]
    have small := Nat.mod_lt other positive
    cases value with
    | true =>
        simp only [if_true, BitVec.getLsbD_or, getLsbD_bitOf positive, bits]
        by_cases equal : other = bit <;> simp [equal]
    | false =>
        simp only [Bool.false_eq_true, if_false, BitVec.getLsbD_and, BitVec.getLsbD_not,
          getLsbD_bitOf positive, bits, small]
        by_cases equal : other = bit <;> simp [equal]
  · have different : other ≠ bit := by
      rintro rfl
      exact same rfl
    simp only [same, different, if_false, id_map']

theorem words_ext (positive : 0 < width) {first second : List (BitVec width)}
    (length : first.length = second.length)
    (bits : ∀ bit < width * first.length, testBit first bit = testBit second bit) :
    first = second := by
  apply List.ext_getElem length
  intro index inFirst inSecond
  apply BitVec.eq_of_getLsbD_eq
  intro bit small
  have inside : width * index + bit < width * first.length := by
    have below := Nat.mul_le_mul_left width inFirst
    rw [Nat.mul_succ] at below
    omega
  have same := bits _ inside
  have quotient : (width * index + bit) / width = index := by
    rw [Nat.mul_add_div positive, Nat.div_eq_of_lt small, Nat.add_zero]
  have remainder : (width * index + bit) % width = bit := by
    rw [Nat.mul_add_mod, Nat.mod_eq_of_lt small]
  rw [testBit_eq positive, testBit_eq positive, quotient, remainder] at same
  simpa only [List.getD_eq_getElem?_getD, List.getElem?_eq_getElem inFirst,
    List.getElem?_eq_getElem inSecond, Option.getD_some] using same

end Hogl.Data
