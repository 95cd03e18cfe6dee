import Hogl.Data.MaskedIndex

namespace Hogl.Data

/-! # Counting under any word

An index that is advanced by `(index + 1) & word` runs through the low one
bits of the word, whatever stands above them.  If the word is a mask these are
all its bits.
-/

/-- The number of one bits below the lowest zero. -/
def lowOnes : Nat → Nat → Nat
  | 0, _ => 0
  | bits + 1, word => if word % 2 = 1 then lowOnes bits (word / 2) + 1 else 0

/-- How many values an index runs through. -/
def lowRun (word : UInt32) : Nat := 2 ^ lowOnes 32 word.toNat

/-- Above the low ones stands a zero. -/
theorem lowOnes_spec {bits word : Nat} (bound : word < 2 ^ bits) :
    ∃ high, word = high * 2 * 2 ^ lowOnes bits word + (2 ^ lowOnes bits word - 1) := by
  induction bits generalizing word with
  | zero =>
      refine ⟨0, ?_⟩
      simp only [lowOnes]
      omega
  | succ bits ih =>
      by_cases odd : word % 2 = 1
      · obtain ⟨high, half⟩ := @ih (word / 2) (by omega)
        refine ⟨high, ?_⟩
        rw [lowOnes, if_pos odd, Nat.pow_succ]
        have positive := Nat.two_pow_pos (lowOnes bits (word / 2))
        have whole : word = 2 * (word / 2) + 1 := by omega
        rw [← Nat.mul_assoc]
        generalize 2 ^ lowOnes bits (word / 2) = run at *
        generalize high * 2 * run = above at *
        omega
      · refine ⟨word / 2, ?_⟩
        rw [lowOnes, if_neg odd]
        omega

theorem lowOnes_le (bits word : Nat) : lowOnes bits word ≤ bits := by
  induction bits generalizing word with
  | zero => exact Nat.le_refl 0
  | succ bits ih =>
      rw [lowOnes]
      split
      · exact Nat.succ_le_succ (ih _)
      · exact Nat.zero_le _

/-- An odd number has no more bits in common with an even one than the even
number below it. -/
theorem succ_and_even {even word : Nat} (isEven : even % 2 = 0) (wordEven : word % 2 = 0) :
    (even + 1) &&& word = even &&& word := by
  have halves : (even + 1) / 2 = even / 2 := by omega
  have high : ((even + 1) &&& word) / 2 = (even &&& word) / 2 := by
    rw [Nat.and_div_two, Nat.and_div_two, halves]
  have low (number : Nat) : (number &&& word) % 2 = 0 := by
    have both := mt (@Nat.and_mod_two_eq_one number word).mp (by omega)
    omega
  have first := low even
  have second := low (even + 1)
  omega

/-- The value `count` places behind `start` in its run. -/
def turn (run start count : Nat) : Nat := start / run * run + (start % run + count) % run

section Turns

variable {bits high word start count : Nat}

theorem turn_zero (run start : Nat) : turn run start 0 = start := by
  rw [turn, Nat.add_zero, Nat.mod_mod, Nat.div_add_mod']

theorem turn_div {run : Nat} (positive : 0 < run) (start count : Nat) :
    turn run start count / run = start / run := by
  rw [turn, Nat.mul_comm, Nat.mul_add_div positive, Nat.div_eq_of_lt (Nat.mod_lt _ positive),
    Nat.add_zero]

theorem turn_mod (run start count : Nat) :
    turn run start count % run = (start % run + count) % run := by
  rw [turn, Nat.mul_comm, Nat.mul_add_mod, Nat.mod_mod]

/-- An index that has only bits of the word stays in its run. -/
theorem succ_and_eq_turn {index : Nat} (shape : word = high * 2 * 2 ^ bits + (2 ^ bits - 1))
    (under : index &&& word = index) : (index + 1) &&& word = turn (2 ^ bits) index 1 := by
  have positive := Nat.two_pow_pos bits
  have above : word / 2 ^ bits = high * 2 := by
    rw [shape, Nat.mul_comm, Nat.mul_add_div positive, Nat.div_eq_of_lt (by omega), Nat.add_zero]
  have ones : word % 2 ^ bits = 2 ^ bits - 1 := by
    rw [shape, Nat.mul_comm, Nat.mul_add_mod, Nat.mod_eq_of_lt (by omega)]
  have indexAbove : index / 2 ^ bits &&& high * 2 = index / 2 ^ bits := by
    rw [← above, ← Nat.and_div_two_pow, under]
  have indexEven : index / 2 ^ bits % 2 = 0 := by
    have both := mt (@Nat.and_mod_two_eq_one (index / 2 ^ bits) (high * 2)).mp (by omega)
    rw [indexAbove] at both
    omega
  have quotient : ((index + 1) &&& word) / 2 ^ bits = index / 2 ^ bits := by
    rw [Nat.and_div_two_pow, above, Nat.succ_div]
    split
    · rw [succ_and_even indexEven (by omega), indexAbove]
    · rw [Nat.add_zero, indexAbove]
  have rest : ((index + 1) &&& word) % 2 ^ bits = (index % 2 ^ bits + 1) % 2 ^ bits := by
    rw [Nat.and_mod_two_pow, ones, Nat.and_two_pow_sub_one_eq_mod, Nat.mod_mod, Nat.mod_add_mod]
  rw [turn, ← rest, ← quotient]
  exact (Nat.div_add_mod' _ _).symm

/-- Advancing goes on to the next value of the run. -/
theorem succ_and_turn (shape : word = high * 2 * 2 ^ bits + (2 ^ bits - 1))
    (under : start &&& word = start) (count : Nat) :
    (turn (2 ^ bits) start count + 1) &&& word = turn (2 ^ bits) start (count + 1) := by
  have positive := Nat.two_pow_pos bits
  have next (count : Nat) :
      turn (2 ^ bits) (turn (2 ^ bits) start count) 1 = turn (2 ^ bits) start (count + 1) := by
    rw [turn, turn_div positive, turn_mod, Nat.mod_add_mod]
    rfl
  have inside : turn (2 ^ bits) start count &&& word = turn (2 ^ bits) start count := by
    induction count with
    | zero => rw [turn_zero, under]
    | succ count ih => rw [← next, ← succ_and_eq_turn shape ih, Nat.and_assoc, Nat.and_self]
  rw [succ_and_eq_turn shape inside, next]

/-- Modulo a size, an index runs through the smaller of the two. -/
theorem turn_mod_size {run size : Nat} (positive : 0 < run) (positive' : 0 < size)
    (either : run ∣ size ∨ size ∣ run) (start count : Nat) :
    turn run start count % size = turn (min run size) (start % size) count := by
  rcases either with ⟨parts, product⟩ | ⟨parts, product⟩
  · have smaller : run ≤ size := Nat.le_of_dvd positive' ⟨parts, product⟩
    rw [Nat.min_eq_left smaller, product, Nat.mod_mul, turn_mod, turn_div positive, turn,
      Nat.mod_mul, Nat.add_mul_mod_self_left, Nat.mod_mod, Nat.add_mul_div_left _ _ positive,
      Nat.div_eq_of_lt (Nat.mod_lt _ positive), Nat.zero_add, Nat.mul_comm run, Nat.add_comm]
  · have smaller : size ≤ run := Nat.le_of_dvd positive ⟨parts, product⟩
    have dvd : size ∣ run := ⟨parts, product⟩
    rw [Nat.min_eq_right smaller, turn, turn, Nat.div_eq_of_lt (Nat.mod_lt start positive'),
      Nat.zero_mul, Nat.zero_add, Nat.mod_mod, Nat.add_mod (_ * run), Nat.mod_mod_of_dvd _ dvd,
      Nat.mul_mod, Nat.mod_eq_zero_of_dvd dvd, Nat.mul_zero, Nat.zero_mod, Nat.zero_add, Nat.mod_mod,
      Nat.add_mod, Nat.mod_mod_of_dvd _ dvd, ← Nat.add_mod, Nat.mod_add_mod]

/-- The highest of the first `count` values. -/
def highest (run start count : Nat) : Nat :=
  start / run * run + min (start % run + (count - 1)) (run - 1)

theorem turn_le_highest {run : Nat} (positive : 0 < run) {place : Nat} (inside : place < count) :
    turn run start place ≤ highest run start count := by
  have less := Nat.mod_lt (start % run + place) positive
  have bound := Nat.mod_le (start % run + place) run
  rw [turn, highest]
  omega

theorem highest_reached {run : Nat} (positive : 0 < run) (several : 0 < count) :
    ∃ place < count, turn run start place = highest run start count := by
  have low := Nat.mod_lt start positive
  rw [highest]
  rcases Nat.le_total (start % run + (count - 1)) (run - 1) with before | around
  · refine ⟨count - 1, by omega, ?_⟩
    rw [turn, Nat.min_eq_left before, Nat.mod_eq_of_lt (by omega)]
  · refine ⟨run - 1 - start % run, by omega, ?_⟩
    rw [turn, Nat.min_eq_right around, Nat.mod_eq_of_lt (by omega)]
    omega

end Turns

/-- The slot `count` places behind `start`. -/
def looseSlot (word start : UInt32) (count : Nat) : UInt32 :=
  UInt32.ofNat (turn (lowRun word) start.toNat count)

section Slots

variable {word start : UInt32}

theorem lowRun_pos (word : UInt32) : 0 < lowRun word := Nat.two_pow_pos _

theorem succ_and_toNat (index word : UInt32) :
    ((index + 1) &&& word).toNat = (index.toNat + 1) &&& word.toNat := by
  have small : (index.toNat + 1) &&& word.toNat < 2 ^ 32 :=
    Nat.lt_of_le_of_lt Nat.and_le_right word.toNat_lt
  rw [UInt32.toNat_and, UInt32.toNat_add, ← Nat.mod_eq_of_lt small, Nat.and_mod_two_pow,
    Nat.mod_eq_of_lt word.toNat_lt]
  rfl

theorem lowRun_dvd (word : UInt32) : lowRun word ∣ 2 ^ 32 := Nat.pow_dvd_pow 2 (lowOnes_le _ _)

theorem looseSlot_toNat (word start : UInt32) (count : Nat) :
    (looseSlot word start count).toNat = turn (lowRun word) start.toNat count := by
  have rest := Nat.mod_lt (start.toNat % lowRun word + count) (lowRun_pos word)
  have whole : (start.toNat / lowRun word + 1) * lowRun word ≤ 2 ^ 32 := by
    obtain ⟨parts, product⟩ := lowRun_dvd word
    have below := Nat.div_lt_of_lt_mul (product ▸ start.toNat_lt)
    rw [product, Nat.mul_comm (lowRun word)]
    exact Nat.mul_le_mul_right _ below
  rw [Nat.succ_mul] at whole
  rw [looseSlot, UInt32.toNat_ofNat', Nat.mod_eq_of_lt]
  rw [turn]
  omega

theorem looseSlot_zero (word start : UInt32) : looseSlot word start 0 = start := by
  rw [← UInt32.toNat_inj, looseSlot_toNat, turn_zero]

theorem looseSlot_succ (under : start &&& word = start) (count : Nat) :
    (looseSlot word start count + 1) &&& word = looseSlot word start (count + 1) := by
  obtain ⟨high, shape⟩ := lowOnes_spec word.toNat_lt
  rw [← UInt32.toNat_inj, succ_and_toNat, looseSlot_toNat, looseSlot_toNat]
  apply succ_and_turn shape
  rw [← UInt32.toNat_and, under]

theorem looseSlot_div (word start : UInt32) (count : Nat) :
    (looseSlot word start count).toNat / lowRun word = start.toNat / lowRun word := by
  rw [looseSlot_toNat, turn_div (lowRun_pos word)]

/-- The slots of one run are different. -/
theorem looseSlot_inj {first second : Nat} (inside : first < lowRun word)
    (inside' : second < lowRun word) (same : looseSlot word start first = looseSlot word start second) :
    first = second := by
  have rest := congrArg (fun slot => slot.toNat % lowRun word) same
  simp only [looseSlot_toNat, turn_mod] at rest
  have shifted := position_eq_of_slot_eq rest (by omega) (by omega)
  omega

/-- How many places `stop` is behind `start`, if they are in one run. -/
def looseDistance (word start stop : UInt32) : Nat :=
  (stop.toNat % lowRun word + lowRun word - start.toNat % lowRun word) % lowRun word

theorem looseDistance_lt (word start stop : UInt32) :
    looseDistance word start stop < lowRun word := Nat.mod_lt _ (lowRun_pos word)

theorem looseSlot_distance {stop : UInt32}
    (together : stop.toNat / lowRun word = start.toNat / lowRun word) :
    looseSlot word start (looseDistance word start stop) = stop := by
  have low := Nat.mod_lt start.toNat (lowRun_pos word)
  have back : start.toNat % lowRun word + (stop.toNat % lowRun word + lowRun word -
      start.toNat % lowRun word) = stop.toNat % lowRun word + lowRun word := by omega
  rw [← UInt32.toNat_inj, looseSlot_toNat, turn, looseDistance, Nat.add_mod_mod, back,
    Nat.add_mod_right, Nat.mod_mod, ← together, Nat.div_add_mod']

end Slots

end Hogl.Data
