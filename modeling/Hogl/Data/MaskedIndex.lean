import Mathlib.Data.Nat.ModEq

namespace Hogl.Data

/-! # Masked 32-bit indices

Circular structures often keep their indices in machine words and reduce them
with a bit mask instead of a division.  The lemmas below replace each masked
word operation by arithmetic on unbounded positions modulo the slot count, so
that clients can reason with counters that never wrap.
-/

/-- A word with all of its low bits set; `mask + 1` slots are addressed. -/
def IsMask (mask : UInt32) : Prop := ∃ bits, mask.toNat + 1 = 2 ^ bits

/-- The number of slots a mask addresses. -/
def slotCount (mask : UInt32) : Nat := mask.toNat + 1

variable {mask word left right : UInt32} {position lower upper : Nat}

theorem slotCount_le (mask : UInt32) : slotCount mask ≤ 2 ^ 32 := mask.toNat_lt

theorem IsMask.slotCount_dvd (isMask : IsMask mask) : slotCount mask ∣ 2 ^ 32 := by
  obtain ⟨bits, size⟩ := isMask
  have bound : 2 ^ bits ≤ 2 ^ 32 := size ▸ slotCount_le mask
  rw [slotCount, size]
  exact Nat.pow_dvd_pow 2 ((Nat.pow_le_pow_iff_right (by decide)).mp bound)

theorem IsMask.and_toNat (isMask : IsMask mask) (word : UInt32) :
    (word &&& mask).toNat = word.toNat % slotCount mask := by
  obtain ⟨bits, size⟩ := isMask
  have low : mask.toNat = 2 ^ bits - 1 := by omega
  rw [UInt32.toNat_and, low, Nat.and_two_pow_sub_one_eq_mod, slotCount, size]

/-- Reducing a word addition modulo the slot count forgets the 32-bit wrap. -/
theorem IsMask.add_modEq (isMask : IsMask mask)
    (leftPosition : left.toNat ≡ lower [MOD slotCount mask])
    (rightPosition : right.toNat ≡ upper [MOD slotCount mask]) :
    (left + right).toNat ≡ lower + upper [MOD slotCount mask] := by
  have wrapped : (left + right).toNat ≡ left.toNat + right.toNat [MOD slotCount mask] := by
    rw [Nat.ModEq, UInt32.toNat_add, Nat.mod_mod_of_dvd _ isMask.slotCount_dvd]
  exact wrapped.trans (leftPosition.add rightPosition)

/-- The circular distance between two positions less than one revolution
apart is their plain difference. -/
theorem IsMask.sub_and_toNat (isMask : IsMask mask)
    (leftPosition : left.toNat ≡ upper [MOD slotCount mask])
    (rightPosition : right.toNat ≡ lower [MOD slotCount mask])
    (ordered : lower ≤ upper) (near : upper - lower < slotCount mask) :
    ((left - right) &&& mask).toNat = upper - lower := by
  have restored : (left - right).toNat + right.toNat ≡ upper [MOD slotCount mask] := by
    have exact : left - right + right = left := UInt32.sub_add_cancel left right
    have sum := isMask.add_modEq (Nat.ModEq.refl (left - right).toNat) (Nat.ModEq.refl right.toNat)
    rw [exact] at sum
    exact sum.symm.trans leftPosition
  have difference : (left - right).toNat ≡ upper - lower [MOD slotCount mask] := by
    apply Nat.ModEq.add_right_cancel rightPosition
    rw [Nat.sub_add_cancel ordered]
    exact restored
  rw [isMask.and_toNat, difference, Nat.mod_eq_of_lt near]

/-- Advancing a masked index by one moves to the slot of the next position. -/
theorem IsMask.succ_and_toNat (isMask : IsMask mask)
    (current : word.toNat ≡ position [MOD slotCount mask]) :
    ((word + 1) &&& mask).toNat = (position + 1) % slotCount mask := by
  rw [isMask.and_toNat]
  exact isMask.add_modEq current (Nat.ModEq.refl 1)

/-- Positions less than one revolution apart that share a slot are equal. -/
theorem position_eq_of_slot_eq {modulus first second : Nat}
    (sameSlot : first % modulus = second % modulus)
    (near : first < second + modulus) (near' : second < first + modulus) :
    first = second :=
  Nat.ModEq.eq_of_abs_lt sameSlot (by rw [abs_lt]; omega)

end Hogl.Data
