import Hogl.Data.LooseMasks
import Hogl.Recover.Rings

namespace Hogl.Recover

open Hogl.Data Hogl.Ring

/-! # Walking an accepted ring

The loops of `fixup_records` and `dump_records` on a ring that
`ring_validator::fixup` let pass, whatever its fields are.  The ring object
itself is not part of a record that the loops write to. -/

section LooseWalk

variable {mask start : UInt32}

theorem walk_step {iterator : PopIterator} {slot : UInt32}
    (stands : (iterator.head + 1) &&& mask = slot) (rounds : Nat) :
    walk mask (rounds + 1) iterator =
      if slot = iterator.tail then some []
      else (walk mask rounds { iterator with head := slot }).map fun slots => slot :: slots := by
  subst stands
  rw [walk, PopIterator.next]
  by_cases arrived : (iterator.head + 1) &&& mask = iterator.tail
  · rw [if_pos arrived, if_pos arrived]
  · rw [if_neg arrived, if_neg arrived]

/-- From one slot of a run to another. -/
theorem walk_run (under : start &&& mask = start) {iterator : PopIterator} {passed limit : Nat}
    (stands : (iterator.head + 1) &&& mask = looseSlot mask start passed)
    (tail : iterator.tail = looseSlot mask start limit) (ordered : passed ≤ limit)
    (inside : limit < lowRun mask) :
    walk mask (limit - passed + 1) iterator =
      some ((List.range (limit - passed)).map fun offset => looseSlot mask start (passed + offset)) := by
  generalize left : limit - passed = count
  induction count generalizing iterator passed with
  | zero =>
      have arrived : passed = limit := by omega
      rw [walk_step stands, tail, arrived, if_pos rfl, List.range_zero, List.map_nil]
  | succ count ih =>
      have before : looseSlot mask start passed ≠ looseSlot mask start limit := by
        intro same
        have equal := looseSlot_inj (by omega) inside same
        omega
      have rest := @ih { iterator with head := looseSlot mask start passed } (passed + 1)
        (looseSlot_succ under passed) tail (by omega) (by omega)
      rw [walk_step stands, tail, if_neg before, ← tail, rest, Option.map_some,
        List.range_succ_eq_map, List.map_cons, List.map_map, Nat.add_zero]
      congr 2
      apply List.map_congr_left
      intro offset _
      rw [Function.comp_apply, Nat.succ_eq_add_one, Nat.add_right_comm, Nat.add_assoc]

/-- A tail outside of the run is never met. -/
theorem walk_endless (under : start &&& mask = start) {iterator : PopIterator} {passed : Nat}
    (stands : (iterator.head + 1) &&& mask = looseSlot mask start passed)
    (missed : ∀ count, looseSlot mask start count ≠ iterator.tail) (rounds : Nat) :
    walk mask rounds iterator = none := by
  induction rounds generalizing iterator passed with
  | zero => rfl
  | succ rounds ih =>
      have rest := @ih { iterator with head := looseSlot mask start passed } (passed + 1)
        (looseSlot_succ under passed) missed
      rw [walk_step stands, if_neg (missed passed), rest, Option.map_none]

end LooseWalk

variable {α : Type}

/-- The loops over the ring end, they see no slot twice, and each record they
see lies in the section of the record block. -/
def SafeWalk (image : RingImage α) (fixed : FixedRing α) : Prop :=
  ∃ rounds slots, walk fixed.ring.capacity rounds (.reset fixed.ring) = some slots ∧ slots.Nodup ∧
    ∀ slot ∈ slots, fixed.recTop.offset.toNat + (slot <<< image.recShift).toNat +
      image.recordSize.toNat ≤ fixed.recTop.sect.size.toNat

namespace RingImage

/-- The slot behind the head that the loops start from. -/
def first (image : RingImage α) (reset : Bool) : UInt32 :=
  ((if reset then 0 else image.ring.head) + 1) &&& image.ring.capacity

def tailAfter (image : RingImage α) (reset : Bool) : UInt32 :=
  if reset then image.ring.capacity else image.ring.tail

/-- How many records an offset of 32 bits can tell apart. -/
def reach (image : RingImage α) : Nat := 2 ^ 32 / image.recordSize.toNat

/-- The highest of the records from the first one up to the tail. -/
def highestRecord (image : RingImage α) (reset : Bool) : Nat :=
  highest (min (lowRun image.ring.capacity) image.reach) ((image.first reset).toNat % image.reach)
    (looseDistance image.ring.capacity (image.first reset) (image.tailAfter reset))

/-- The size of the record block, modulo 2^32. -/
def blockSize (image : RingImage α) : UInt64 :=
  (image.recordSize * (image.ring.capacity + 1)).toUInt64

/-- The section that the address of the record block belongs to. -/
def blockSection (image : RingImage α) (sections : List Section) : Option Section :=
  sections.find? fun sect =>
    sect.vma ≤ image.recTop ∧ image.recTop + image.blockSize ≤ sect.vma + sect.size

end RingImage

theorem recordSize_toNat (image : RingImage α) :
    image.recordSize.toNat = 2 ^ (image.recShift.toNat % 32) := by
  have small : image.recShift.toNat % 32 < 32 := Nat.mod_lt _ (by decide)
  have power : 2 ^ (image.recShift.toNat % 32) < 2 ^ 32 := Nat.pow_lt_pow_right (by decide) small
  rw [RingImage.recordSize, UInt32.toNat_shiftLeft, Nat.shiftLeft_eq]
  exact (Nat.mod_eq_of_lt (by simpa using power)).trans (Nat.one_mul _)

theorem reach_eq (image : RingImage α) : image.reach = 2 ^ (32 - image.recShift.toNat % 32) := by
  have small : image.recShift.toNat % 32 < 32 := Nat.mod_lt _ (by decide)
  rw [RingImage.reach, recordSize_toNat, Nat.pow_div (Nat.le_of_lt small) (by decide)]

theorem record_offset (image : RingImage α) (slot : UInt32) :
    (slot <<< image.recShift).toNat = slot.toNat % image.reach * image.recordSize.toNat := by
  have small : image.recShift.toNat % 32 < 32 := Nat.mod_lt _ (by decide)
  have whole : 2 ^ 32 = image.reach * image.recordSize.toNat := by
    rw [reach_eq, recordSize_toNat, ← Nat.pow_add]
    congr 1
    omega
  rw [UInt32.toNat_shiftLeft, Nat.shiftLeft_eq, whole, ← Nat.mul_mod_mul_right, recordSize_toNat]

theorem first_under (image : RingImage α) (reset : Bool) :
    image.first reset &&& image.ring.capacity = image.first reset := by
  rw [RingImage.first, UInt32.and_assoc, UInt32.and_self]

/-- The offset of the record behind `passed` others. -/
theorem record_offset_turn (image : RingImage α) (mask start : UInt32) (passed : Nat) :
    (looseSlot mask start passed <<< image.recShift).toNat =
      turn (min (lowRun mask) image.reach) (start.toNat % image.reach) passed *
        image.recordSize.toNat := by
  have either : lowRun mask ∣ image.reach ∨ image.reach ∣ lowRun mask := by
    rw [reach_eq, lowRun]
    rcases Nat.le_total (lowOnes 32 mask.toNat) (32 - image.recShift.toNat % 32) with less | more
    · exact .inl (Nat.pow_dvd_pow 2 less)
    · exact .inr (Nat.pow_dvd_pow 2 more)
  have positive : 0 < image.reach := by
    rw [reach_eq]
    exact Nat.two_pow_pos _
  rw [record_offset, looseSlot_toNat, turn_mod_size (lowRun_pos mask) positive either]

/-- The records on the way lie below a bound if the highest of them does. -/
theorem records_inside_iff (image : RingImage α) (mask start : UInt32) (base count bound : Nat) :
    (∀ slot ∈ (List.range count).map (looseSlot mask start),
      base + (slot <<< image.recShift).toNat + image.recordSize.toNat ≤ bound) ↔
    count = 0 ∨ base + (highest (min (lowRun mask) image.reach) (start.toNat % image.reach) count + 1) *
      image.recordSize.toNat ≤ bound := by
  have positive : 0 < min (lowRun mask) image.reach := by
    rw [reach_eq]
    exact Nat.lt_min.mpr ⟨lowRun_pos mask, Nat.two_pow_pos _⟩
  simp only [List.forall_mem_map, List.mem_range, record_offset_turn]
  constructor
  · intro inside
    rcases Nat.eq_zero_or_pos count with none | several
    · exact .inl none
    · obtain ⟨place, before, top⟩ := highest_reached positive several
      have last := inside place before
      rw [top, Nat.add_assoc, ← Nat.succ_mul] at last
      exact .inr last
  · intro either place before
    rcases either with none | last
    · omega
    · have below := Nat.mul_le_mul_right image.recordSize.toNat
        (@turn_le_highest (start.toNat % image.reach) count _ positive place before)
      rw [Nat.succ_mul] at last
      omega

theorem looseDistance_eq_zero {mask start stop : UInt32}
    (together : stop.toNat / lowRun mask = start.toNat / lowRun mask) :
    looseDistance mask start stop = 0 ↔ stop = start := by
  constructor
  · intro none
    rw [← looseSlot_distance together, none, looseSlot_zero]
  · rintro rfl
    rw [looseDistance, Nat.add_sub_cancel_left, Nat.mod_self]

theorem fixup_recTop {sections : List Section} {image : RingImage α} {reset : Bool}
    {fixed : FixedRing α} (accepted : image.fixup sections reset = some fixed) :
    ∃ sect, image.blockSection sections = some sect ∧
      fixed.recTop = { sect, offset := image.recTop - sect.vma } := by
  obtain ⟨name, recTop, -, found, rfl⟩ := fixup_some accepted
  obtain ⟨sect, inside, rfl⟩ := Option.map_eq_some_iff.mp found
  exact ⟨sect, inside, rfl⟩

/-- An accepted ring is safe to walk exactly if its tail lies in the run of
slots that starts behind the head, and the highest record on the way to it in
the section of the record block. -/
theorem safe_walk_iff {sections : List Section} {image : RingImage α} {reset : Bool}
    {fixed : FixedRing α} (accepted : image.fixup sections reset = some fixed) :
    SafeWalk image fixed ↔
      (image.tailAfter reset).toNat / lowRun image.ring.capacity =
        (image.first reset).toNat / lowRun image.ring.capacity ∧
      (image.tailAfter reset = image.first reset ∨
        ∃ sect, image.blockSection sections = some sect ∧
          (image.recTop - sect.vma).toNat +
            (image.highestRecord reset + 1) * image.recordSize.toNat ≤ sect.size.toNat) := by
  have ring := fixup_ring accepted
  obtain ⟨sect, found, recTop⟩ := fixup_recTop accepted
  have capacity : fixed.ring.capacity = image.ring.capacity := by
    rw [ring]
    split <;> rfl
  have tail : (PopIterator.reset fixed.ring).tail = image.tailAfter reset := by
    rw [ring, RingImage.tailAfter]
    split <;> rfl
  have stands : ((PopIterator.reset fixed.ring).head + 1) &&& image.ring.capacity =
      looseSlot image.ring.capacity (image.first reset) 0 := by
    rw [looseSlot_zero, ring, RingImage.first]
    split <;> rfl
  rw [SafeWalk, capacity, recTop]
  by_cases together : (image.tailAfter reset).toNat / lowRun image.ring.capacity =
      (image.first reset).toNat / lowRun image.ring.capacity
  · have walks := walk_run (first_under image reset) stands
      (tail.trans (looseSlot_distance together).symm) (Nat.zero_le _) (looseDistance_lt _ _ _)
    simp only [Nat.sub_zero, Nat.zero_add] at walks
    have inside := records_inside_iff image image.ring.capacity (image.first reset)
      (image.recTop - sect.vma).toNat
      (looseDistance image.ring.capacity (image.first reset) (image.tailAfter reset))
      sect.size.toNat
    rw [looseDistance_eq_zero together, ← RingImage.highestRecord] at inside
    have only : (∃ other, image.blockSection sections = some other ∧
        (image.recTop - other.vma).toNat +
          (image.highestRecord reset + 1) * image.recordSize.toNat ≤ other.size.toNat) ↔
        (image.recTop - sect.vma).toNat +
          (image.highestRecord reset + 1) * image.recordSize.toNat ≤ sect.size.toNat := by
      simp only [found, Option.some.injEq, exists_eq_left']
    rw [and_iff_right together, only, ← inside]
    constructor
    · rintro ⟨rounds, slots, ends, -, safe⟩
      rw [walk_unique ends walks] at safe
      exact safe
    · intro safe
      exact ⟨_, _, walks, walk_nodup walks, safe⟩
  · refine iff_of_false ?_ fun both => together both.1
    rintro ⟨rounds, slots, ends, -⟩
    have missed (count : Nat) :
        looseSlot image.ring.capacity (image.first reset) count ≠
          (PopIterator.reset fixed.ring).tail := by
      intro same
      rw [tail] at same
      exact together ((congrArg (·.toNat / _) same).symm.trans (looseSlot_div _ _ count))
    rw [walk_endless (first_under image reset) stands missed] at ends
    cases ends

/-- A pending record in the slot 0 of four is visited in its section. -/
theorem safe_walk_four : ∃ fixed, (fourSlots [.push 7]).fixup fourSlotsMemory false = some fixed ∧
    SafeWalk (fourSlots [.push 7]) fixed :=
  ⟨_, rfl, (@safe_walk_iff Nat fourSlotsMemory (fourSlots [.push 7]) false _ rfl).mpr
    (by decide)⟩

/-- The image of a ring with a capacity that is no mask. -/
def brokenMask : RingImage Nat where
  ring :=
    { capacity := 2
      tail := 1
      head := 0
      seqnum := 1
      dropcnt := 0
      blocking := false
      slots := fun _ => 7 }
  prio := 10
  recShift := 8
  recTailroom := 224
  name := 0x1000
  recTop := 0x2000

/-- It is accepted, and the loops stay at the slot 0 for ever. -/
theorem broken_mask_endless : ∃ fixed, brokenMask.fixup fourSlotsMemory false = some fixed ∧
    ¬ SafeWalk brokenMask fixed := by
  obtain ⟨fixed, accepted⟩ : ∃ fixed, brokenMask.fixup fourSlotsMemory false = some fixed :=
    ⟨_, rfl⟩
  refine ⟨fixed, accepted, ?_⟩
  rintro ⟨rounds, slots, ends, -⟩
  have stays (rounds : Nat) : walk 2 rounds { head := 0, tail := 1 } = none := by
    induction rounds with
    | zero => rfl
    | succ rounds ih =>
        rw [@walk_step 2 { head := 0, tail := 1 } 0 rfl, if_neg (by decide), ih, Option.map_none]
  have ring : fixed.ring = brokenMask.ring := fixup_ring accepted
  rw [ring] at ends
  have never := ends.symm.trans (stays rounds)
  cases never

end Hogl.Recover
