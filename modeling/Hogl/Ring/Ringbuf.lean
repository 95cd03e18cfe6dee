import Hogl.Data.MaskedIndex

namespace Hogl.Ring

open Hogl.Data

universe u

/-! # The ring buffer

`Ringbuf` follows `include/hogl/detail/ringbuf.hpp`.  The record block is an
array of slots, so a `record *` into a ring is a slot index and `get_record`
and `get_index` are the identity on indices.  `_head` names the last consumed
slot and `_tail` the slot the writer fills next; one slot always stays free.
-/

structure Ringbuf (α : Type u) where
  /-- `_capacity`: the number of slots minus one, used as the index mask. -/
  capacity : UInt32
  tail : UInt32
  head : UInt32
  seqnum : UInt64
  dropcnt : UInt64
  blocking : Bool
  slots : UInt32 → α

/-- How `push_commit` leaves its loop.  A full blocking ring does not return
from it: the writer waits in `block()` and tests again. -/
inductive PushOutcome where
  | committed
  | dropped
  | blocked
deriving Repr, DecidableEq

namespace Ringbuf

variable {α : Type u}

/-- The state the constructor and `reset()` leave behind. -/
def fresh (mask : UInt32) (blocking : Bool) (slots : UInt32 → α) : Ringbuf α :=
  { capacity := mask, tail := 0, head := mask, seqnum := 0, dropcnt := 0, blocking, slots }

def size (ring : Ringbuf α) : UInt32 := (ring.tail - (ring.head + 1)) &&& ring.capacity

def room (ring : Ringbuf α) : UInt32 := (ring.head - ring.tail) &&& ring.capacity

def empty (ring : Ringbuf α) : Bool := ((ring.head + 1) &&& ring.capacity) == ring.tail

def incSeqnum (ring : Ringbuf α) : Ringbuf α := { ring with seqnum := ring.seqnum + 1 }

def incDropcnt (ring : Ringbuf α) : Ringbuf α := { ring with dropcnt := ring.dropcnt + 1 }

def commitHead (ring : Ringbuf α) (head : UInt32) : Ringbuf α := { ring with head }

def commitTail (ring : Ringbuf α) (tail : UInt32) : Ringbuf α := { ring with tail }

/-- A store through the pointer of one slot. -/
def store (ring : Ringbuf α) (slot : UInt32) (value : α) : Ringbuf α :=
  { ring with slots := fun index => if index = slot then value else ring.slots index }

def pushBegin (ring : Ringbuf α) : UInt32 := ring.tail

def pushCommit (ring : Ringbuf α) : PushOutcome × Ringbuf α :=
  if ring.head = ring.tail then
    if ring.blocking then (.blocked, ring) else (.dropped, ring.incDropcnt)
  else (.committed, ring.commitTail ((ring.tail + 1) &&& ring.capacity))

def popBegin (ring : Ringbuf α) : Option UInt32 :=
  let head := (ring.head + 1) &&& ring.capacity
  if head = ring.tail then none else some head

def popCommit (ring : Ringbuf α) : Ringbuf α :=
  ring.commitHead ((ring.head + 1) &&& ring.capacity)

/-- The first `count` slots behind the head, oldest first. -/
def slotsAhead (ring : Ringbuf α) (count : Nat) : List UInt32 :=
  (List.range count).map fun offset => (ring.head + 1 + UInt32.ofNat offset) &&& ring.capacity

/-- The slots that are committed and not yet consumed. -/
def queuedSlots (ring : Ringbuf α) : List UInt32 := ring.slotsAhead ring.size.toNat

def queue (ring : Ringbuf α) : List α := ring.queuedSlots.map ring.slots

end Ringbuf

/-- `ringbuf::pop_iterator` without its ring pointer: the cursor and the tail
it saw when it was last reset. -/
structure PopIterator where
  head : UInt32
  tail : UInt32
deriving Repr, DecidableEq

namespace PopIterator

variable {α : Type u}

def reset (ring : Ringbuf α) : PopIterator := { head := ring.head, tail := ring.tail }

def next (iterator : PopIterator) (mask : UInt32) : Option (UInt32 × PopIterator) :=
  let head := (iterator.head + 1) &&& mask
  if head = iterator.tail then none else some (head, { iterator with head })

def rewind (iterator : PopIterator) (slot : UInt32) : PopIterator := { iterator with head := slot }

def commit (iterator : PopIterator) (ring : Ringbuf α) : Ringbuf α := ring.commitHead iterator.head

end PopIterator

/-! ## Positions

The wrapped indices are compared with two counters that never wrap: the
number of records ever consumed and the number ever committed. -/

/-- The slot that holds the record at an unbounded position. -/
def slotOf (mask : UInt32) (position : Nat) : UInt32 := UInt32.ofNat position &&& mask

theorem slotOf_toNat {mask : UInt32} (isMask : IsMask mask) (position : Nat) :
    (slotOf mask position).toNat = position % slotCount mask := by
  rw [slotOf, isMask.and_toNat, UInt32.toNat_ofNat', Nat.mod_mod_of_dvd _ isMask.slotCount_dvd]

theorem slotOf_modEq {mask : UInt32} (isMask : IsMask mask) (position : Nat) :
    (slotOf mask position).toNat ≡ position [MOD slotCount mask] := by
  rw [Nat.ModEq, slotOf_toNat isMask, Nat.mod_mod]

theorem slotOf_eq_of_toNat {mask word : UInt32} {position : Nat} (isMask : IsMask mask)
    (value : word.toNat = position % slotCount mask) : word = slotOf mask position :=
  UInt32.toNat_inj.mp (value.trans (slotOf_toNat isMask position).symm)

/-- Two positions less than one revolution apart use different slots. -/
theorem slotOf_injective {mask : UInt32} {first second : Nat} (isMask : IsMask mask)
    (same : slotOf mask first = slotOf mask second)
    (near : first < second + slotCount mask) (near' : second < first + slotCount mask) :
    first = second := by
  apply position_eq_of_slot_eq _ near near'
  rw [← slotOf_toNat isMask, ← slotOf_toNat isMask, same]

/-- The indices of a ring that has consumed `consumed` of `committed` records. -/
structure Ringbuf.Spans {α : Type u} (ring : Ringbuf α) (consumed committed : Nat) : Prop where
  isMask : IsMask ring.capacity
  ordered : consumed ≤ committed
  bounded : committed - consumed ≤ ring.capacity.toNat
  tail : ring.tail = slotOf ring.capacity committed
  head : ring.head = slotOf ring.capacity (consumed + ring.capacity.toNat)

namespace Ringbuf.Spans

variable {α : Type u} {ring : Ringbuf α} {consumed committed : Nat}

theorem tail_modEq (spans : ring.Spans consumed committed) :
    ring.tail.toNat ≡ committed [MOD slotCount ring.capacity] := by
  rw [spans.tail]
  exact slotOf_modEq spans.isMask committed

theorem head_modEq (spans : ring.Spans consumed committed) :
    ring.head.toNat ≡ consumed + ring.capacity.toNat [MOD slotCount ring.capacity] := by
  rw [spans.head]
  exact slotOf_modEq spans.isMask (consumed + ring.capacity.toNat)

/-- The slot behind the head is the slot of the oldest unconsumed position. -/
theorem ahead_modEq (spans : ring.Spans consumed committed) :
    (ring.head + 1).toNat ≡ consumed [MOD slotCount ring.capacity] := by
  have advanced := spans.isMask.add_modEq spans.head_modEq (Nat.ModEq.refl (1 : UInt32).toNat)
  apply advanced.trans
  change consumed + ring.capacity.toNat + 1 ≡ consumed [MOD slotCount ring.capacity]
  exact Nat.add_modEq_right

theorem ahead_slot (spans : ring.Spans consumed committed) (offset : Nat) :
    (ring.head + 1 + UInt32.ofNat offset) &&& ring.capacity =
      slotOf ring.capacity (consumed + offset) := by
  apply slotOf_eq_of_toNat spans.isMask
  rw [spans.isMask.and_toNat]
  apply spans.isMask.add_modEq spans.ahead_modEq
  rw [Nat.ModEq, UInt32.toNat_ofNat', Nat.mod_mod_of_dvd _ spans.isMask.slotCount_dvd]

theorem next_slot (spans : ring.Spans consumed committed) :
    (ring.head + 1) &&& ring.capacity = slotOf ring.capacity consumed := by
  simpa using spans.ahead_slot 0

theorem size_toNat (spans : ring.Spans consumed committed) :
    ring.size.toNat = committed - consumed :=
  spans.isMask.sub_and_toNat spans.tail_modEq spans.ahead_modEq spans.ordered
    (Nat.lt_succ_of_le spans.bounded)

theorem room_toNat (spans : ring.Spans consumed committed) :
    ring.room.toNat = ring.capacity.toNat - (committed - consumed) := by
  have bounded := spans.bounded
  have ordered := spans.ordered
  rw [room, spans.isMask.sub_and_toNat spans.head_modEq spans.tail_modEq (by omega)
    (by rw [slotCount]; omega)]
  omega

theorem empty_iff (spans : ring.Spans consumed committed) :
    ring.empty = true ↔ consumed = committed := by
  rw [empty, beq_iff_eq, spans.next_slot, spans.tail]
  constructor
  · intro same
    have bounded := spans.bounded
    have ordered := spans.ordered
    exact slotOf_injective spans.isMask same (by rw [slotCount]; omega) (by rw [slotCount]; omega)
  · rintro rfl
    rfl

/-- The writer's full test compares the slot it wants to give up with the
slot reserved behind the head. -/
theorem full_iff (spans : ring.Spans consumed committed) :
    ring.head = ring.tail ↔ committed - consumed = ring.capacity.toNat := by
  have bounded := spans.bounded
  have ordered := spans.ordered
  rw [spans.head, spans.tail]
  constructor
  · intro same
    have equal := slotOf_injective spans.isMask same (by rw [slotCount]; omega)
      (by rw [slotCount]; omega)
    omega
  · intro full
    congr 1
    omega

theorem slotsAhead_eq (spans : ring.Spans consumed committed) (count : Nat) :
    ring.slotsAhead count =
      (List.range count).map fun offset => slotOf ring.capacity (consumed + offset) := by
  simp only [slotsAhead, spans.ahead_slot]

theorem queuedSlots_eq (spans : ring.Spans consumed committed) :
    ring.queuedSlots = (List.range (committed - consumed)).map fun offset =>
      slotOf ring.capacity (consumed + offset) := by
  rw [queuedSlots, spans.size_toNat, spans.slotsAhead_eq]

/-- No queued position shares its slot with the position being filled. -/
theorem slot_ne_tail (spans : ring.Spans consumed committed) {position : Nat}
    (lower : consumed ≤ position) (upper : position < committed) :
    slotOf ring.capacity position ≠ ring.tail := by
  intro same
  have bounded := spans.bounded
  rw [spans.tail] at same
  have equal := slotOf_injective spans.isMask same (by omega) (by rw [slotCount]; omega)
  omega

theorem popBegin_eq (spans : ring.Spans consumed committed) :
    ring.popBegin =
      if consumed = committed then none else some (slotOf ring.capacity consumed) := by
  have empty := spans.empty_iff
  rw [Ringbuf.empty, beq_iff_eq, spans.next_slot] at empty
  simp only [popBegin, spans.next_slot, empty]

theorem commitTail (spans : ring.Spans consumed committed)
    (space : committed - consumed < ring.capacity.toNat) :
    (ring.commitTail ((ring.tail + 1) &&& ring.capacity)).Spans consumed (committed + 1) where
  isMask := spans.isMask
  ordered := Nat.le_succ_of_le spans.ordered
  bounded := by
    change committed + 1 - consumed ≤ ring.capacity.toNat
    omega
  tail := slotOf_eq_of_toNat spans.isMask (spans.isMask.succ_and_toNat spans.tail_modEq)
  head := spans.head

/-- Moving the head to the slot of the last passed position consumes
everything up to and including it. -/
theorem commitHead (spans : ring.Spans consumed committed) {position : Nat}
    (lower : consumed ≤ position) (upper : position ≤ committed) :
    (ring.commitHead (slotOf ring.capacity (position + ring.capacity.toNat))).Spans
      position committed where
  isMask := spans.isMask
  ordered := upper
  bounded := by
    change committed - position ≤ ring.capacity.toNat
    have bounded := spans.bounded
    omega
  tail := spans.tail
  head := rfl

end Ringbuf.Spans

theorem Ringbuf.fresh_spans {α : Type u} {mask : UInt32} (isMask : IsMask mask)
    (blocking : Bool) (slots : UInt32 → α) : (Ringbuf.fresh mask blocking slots).Spans 0 0 where
  isMask := isMask
  ordered := Nat.le_refl 0
  bounded := Nat.zero_le _
  tail := slotOf_eq_of_toNat isMask rfl
  head := slotOf_eq_of_toNat isMask
    (by rw [Nat.zero_add]; exact (Nat.mod_eq_of_lt (Nat.lt_succ_self _)).symm)

/-- The slot reserved behind the head, seen one revolution earlier. -/
theorem slotOf_last {mask : UInt32} (isMask : IsMask mask) (position : Nat) :
    slotOf mask (position + 1 + mask.toNat) = slotOf mask position := by
  apply UInt32.toNat_inj.mp
  rw [slotOf_toNat isMask, slotOf_toNat isMask, Nat.add_right_comm, Nat.add_assoc]
  exact Nat.add_mod_right position (slotCount mask)

/-- `iterator` stands before position `passed` of a snapshot that ends at
position `limit`. -/
structure PopIterator.Stands (iterator : PopIterator) (mask : UInt32) (passed limit : Nat) :
    Prop where
  ordered : passed ≤ limit
  near : limit - passed ≤ mask.toNat
  head : iterator.head = slotOf mask (passed + mask.toNat)
  tail : iterator.tail = slotOf mask limit

namespace PopIterator.Stands

variable {α : Type u} {ring : Ringbuf α} {iterator : PopIterator} {mask : UInt32}
  {consumed committed passed limit : Nat}

theorem reset (spans : ring.Spans consumed committed) :
    (PopIterator.reset ring).Stands ring.capacity consumed committed where
  ordered := spans.ordered
  near := spans.bounded
  head := spans.head
  tail := spans.tail

theorem next_slot (stands : iterator.Stands mask passed limit) (isMask : IsMask mask) :
    (iterator.head + 1) &&& mask = slotOf mask passed := by
  apply slotOf_eq_of_toNat isMask
  rw [isMask.succ_and_toNat (stands.head ▸ slotOf_modEq isMask (passed + mask.toNat))]
  exact Nat.add_mod_right passed (slotCount mask)

/-- `next` yields the slots of the snapshot one by one and stops at its end. -/
theorem next_eq (stands : iterator.Stands mask passed limit) (isMask : IsMask mask) :
    iterator.next mask = if passed = limit then none
      else some (slotOf mask passed, { iterator with head := slotOf mask passed }) := by
  have near := stands.near
  have ordered := stands.ordered
  have reached : slotOf mask passed = iterator.tail ↔ passed = limit := by
    rw [stands.tail]
    constructor
    · intro same
      exact slotOf_injective isMask same (by rw [slotCount]; omega) (by rw [slotCount]; omega)
    · rintro rfl
      rfl
  simp only [next, stands.next_slot isMask, reached]

theorem advance (stands : iterator.Stands mask passed limit) (isMask : IsMask mask)
    (more : passed < limit) :
    PopIterator.Stands { iterator with head := slotOf mask passed } mask (passed + 1) limit where
  ordered := more
  near := by
    have near := stands.near
    omega
  head := (slotOf_last isMask passed).symm
  tail := stands.tail

end PopIterator.Stands

/-! ## Contents -/

/-- From position `lower` on, the slots still hold the records that were
committed there. -/
def Ringbuf.Stores {α : Type u} (ring : Ringbuf α) (records : List α) (lower : Nat) : Prop :=
  ∀ position value, lower ≤ position → records[position]? = some value →
    ring.slots (slotOf ring.capacity position) = value

namespace Ringbuf.Stores

variable {α : Type u} {ring : Ringbuf α} {records : List α} {lower consumed : Nat}

theorem mono (stores : ring.Stores records lower) {higher : Nat} (le : lower ≤ higher) :
    ring.Stores records higher :=
  fun position value bound => stores position value (Nat.le_trans le bound)

/-- The writer fills its own slot without touching a readable one. -/
theorem store_tail (stores : ring.Stores records lower)
    (spans : ring.Spans consumed records.length) (above : consumed ≤ lower) (value : α) :
    (ring.store ring.tail value).Stores records lower := by
  intro position found bound read
  have upper : position < records.length := (List.getElem?_eq_some_iff.mp read).1
  have different := spans.slot_ne_tail (Nat.le_trans above bound) upper
  simp only [store, different, if_false]
  exact stores position found bound read

/-- A store into a slot that has been passed is not seen from `lower` on. -/
theorem store_passed (stores : ring.Stores records lower)
    (spans : ring.Spans consumed records.length) {passed : Nat} (above : consumed ≤ passed)
    (below : passed < lower) (value : α) :
    (ring.store (slotOf ring.capacity passed) value).Stores records lower := by
  intro position found bound read
  have upper : position < records.length := (List.getElem?_eq_some_iff.mp read).1
  have bounded := spans.bounded
  have different : slotOf ring.capacity position ≠ slotOf ring.capacity passed := by
    intro same
    have equal := slotOf_injective spans.isMask same (by rw [slotCount]; omega)
      (by rw [slotCount]; omega)
    omega
  simp only [store, different, if_false]
  exact stores position found bound read

theorem commit (stores : ring.Stores records lower)
    (spans : ring.Spans consumed records.length) (tail : UInt32) :
    (ring.commitTail tail).Stores (records ++ [ring.slots ring.tail]) lower := by
  intro position found bound read
  by_cases old : position < records.length
  · rw [List.getElem?_append_left old] at read
    exact stores position found bound read
  · have last : position = records.length := by
      have inside := (List.getElem?_eq_some_iff.mp read).1
      simp only [List.length_append, List.length_cons, List.length_nil] at inside
      omega
    subst position
    rw [List.getElem?_concat_length, Option.some.injEq] at read
    rw [← read, spans.tail]
    rfl

theorem map_slotsAhead (stores : ring.Stores records lower) (spans : ring.Spans lower
  records.length)
    {count : Nat} (available : lower + count ≤ records.length) :
    (ring.slotsAhead count).map ring.slots = (records.drop lower).take count := by
  rw [spans.slotsAhead_eq, List.map_map]
  apply List.ext_getElem
  · simp only [List.length_map, List.length_range, List.length_take, List.length_drop]
    omega
  · intro offset inRange _
    simp only [List.length_map, List.length_range] at inRange
    have read : records[lower + offset]? = some (records[lower + offset]) :=
      List.getElem?_eq_getElem (by omega)
    simp only [List.getElem_map, List.getElem_range, Function.comp_apply, List.getElem_take,
      List.getElem_drop]
    exact stores (lower + offset) _ (Nat.le_add_right _ _) read

theorem queue_eq (stores : ring.Stores records lower) (spans : ring.Spans lower records.length) :
    ring.queue = records.drop lower := by
  have ordered := spans.ordered
  rw [queue, queuedSlots, spans.size_toNat, stores.map_slotsAhead spans (by omega)]
  exact List.take_of_length_le (by rw [List.length_drop])

end Ringbuf.Stores

end Hogl.Ring
