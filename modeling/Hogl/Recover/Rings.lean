import Hogl.Ring.Ringbuf
import Hogl.Recover.Coredump

namespace Hogl.Recover

open Hogl.Data Hogl.Ring

/-! # Rings of a core dump

`ring_validator::fixup` of `tools/recovery-engine.cc` and the iteration over
the ring that follows it.  A walk has a result if the iterator reaches the tail
within the given number of rounds. -/

/-- A ring in the image, with what the validator reads besides the indices. -/
structure RingImage (α : Type) where
  ring : Ringbuf α
  prio : Int32
  recShift : UInt32
  recTailroom : UInt32
  name : UInt64
  recTop : UInt64

/-- A ring that passed, with its pointers into loaded memory. -/
structure FixedRing (α : Type) where
  ring : Ringbuf α
  name : HostPtr
  recTop : HostPtr

namespace RingImage

variable {α : Type}

def priorityCeiling : Int32 := 9999

def recordSize (image : RingImage α) : UInt32 := 1 <<< image.recShift

/-- `ring_validator::fixup`; the size of the record block is a product of
`unsigned int`s. -/
def fixup (sections : List Section) (image : RingImage α) (reset : Bool) : Option (FixedRing α) :=
  if image.ring.seqnum < image.ring.dropcnt then none
  else if priorityCeiling < image.prio then none
  else if image.recordSize = 0 ∨ 1024 * 1024 < image.recordSize then none
  else if image.recordSize < image.recTailroom then none
  else if image.ring.capacity < image.ring.head ∨ image.ring.capacity < image.ring.tail then none
  else do
    let name ← remap sections image.name 0
    let recTop ← remap sections image.recTop
      (image.recordSize * (image.ring.capacity + 1)).toUInt64
    let ring :=
      if reset then { image.ring with head := 0, tail := image.ring.capacity } else image.ring
    return { ring, name, recTop }

end RingImage

/-- Every slot that `next` returns until there are no more records. -/
def walk (mask : UInt32) : Nat → PopIterator → Option (List UInt32)
  | 0, _ => none
  | rounds + 1, iterator =>
      match iterator.next mask with
      | none => some []
      | some (slot, iterator) => (walk mask rounds iterator).map fun slots => slot :: slots

/-! ## Pushes and pops -/

inductive Traffic (α : Type) where
  | push (value : α)
  | pop

/-- A ring with the slots that were committed and the number of consumed
records. -/
structure History (α : Type) where
  ring : Ringbuf α
  consumed : Nat
  committed : List UInt32

namespace History

variable {α : Type}

def fresh (mask : UInt32) (blocking : Bool) (slots : UInt32 → α) : History α :=
  { ring := .fresh mask blocking slots, consumed := 0, committed := [] }

/-- The writer of a full blocking ring waits and leaves it as it is. -/
def publish (history : History α) : History α :=
  match history.ring.pushCommit with
  | (.committed, ring) =>
      { history with ring, committed := history.committed ++ [history.ring.pushBegin] }
  | (_, ring) => { history with ring }

def step (history : History α) : Traffic α → History α
  | .push value =>
      { history with
        ring := (history.ring.store history.ring.pushBegin value).incSeqnum }.publish
  | .pop =>
      match history.ring.popBegin with
      | none => history
      | some _ =>
          { history with ring := history.ring.popCommit, consumed := history.consumed + 1 }

def run (history : History α) (steps : List (Traffic α)) : History α := steps.foldl step history

/-- The indices follow the positions, and every position was committed to its
slot; a ring of one slot takes nothing. -/
structure Follows (history : History α) (mask : UInt32) : Prop where
  capacity : history.ring.capacity = mask
  spans : history.ring.Spans history.consumed history.committed.length
  committed : history.committed =
    (List.range history.committed.length).map fun position => slotOf mask position
  single : mask.toNat = 0 → history.committed = []

variable {history : History α} {mask : UInt32}

theorem fresh_follows (isMask : IsMask mask) (blocking : Bool) (slots : UInt32 → α) :
    (fresh mask blocking slots).Follows mask where
  capacity := rfl
  spans := Ringbuf.fresh_spans isMask blocking slots
  committed := rfl
  single _ := rfl

theorem Follows.publish (follows : history.Follows mask) : history.publish.Follows mask := by
  obtain ⟨capacity, spans, committed, single⟩ := follows
  by_cases full : history.ring.head = history.ring.tail
  · rw [History.publish, Ringbuf.pushCommit, if_pos full]
    cases history.ring.blocking with
    | true => exact ⟨capacity, spans, committed, single⟩
    | false =>
        exact ⟨capacity, ⟨spans.isMask, spans.ordered, spans.bounded, spans.tail, spans.head⟩,
          committed, single⟩
  · have space := mt spans.full_iff.mpr full
    have bounded := spans.bounded
    have slot : history.ring.tail = slotOf mask history.committed.length := capacity ▸ spans.tail
    rw [History.publish, Ringbuf.pushCommit, if_neg full]
    refine ⟨capacity, ?_, ?_, ?_⟩
    · rw [List.length_append, List.length_singleton]
      exact spans.commitTail (by omega)
    · rw [List.length_append, List.length_singleton, List.range_succ, List.map_append, ← committed]
      exact congrArg _ (congrArg (fun slot => [slot]) slot)
    · intro zero
      rw [capacity] at space bounded
      omega

theorem Follows.step (follows : history.Follows mask) (traffic : Traffic α) :
    (history.step traffic).Follows mask := by
  obtain ⟨capacity, spans, committed, single⟩ := follows
  cases traffic with
  | push value =>
      apply Follows.publish
      exact ⟨capacity, ⟨spans.isMask, spans.ordered, spans.bounded, spans.tail, spans.head⟩,
        committed, single⟩
  | pop =>
      rw [History.step, spans.popBegin_eq]
      by_cases empty : history.consumed = history.committed.length
      · rw [if_pos empty]
        exact ⟨capacity, spans, committed, single⟩
      · rw [if_neg empty]
        refine ⟨capacity, ?_, committed, single⟩
        have ordered := spans.ordered
        have moved : history.ring.popCommit = history.ring.commitHead
            (slotOf history.ring.capacity (history.consumed + 1 + history.ring.capacity.toNat)) := by
          rw [Ringbuf.popCommit, spans.next_slot, slotOf_last spans.isMask]
        rw [moved]
        exact spans.commitHead (Nat.le_succ _) (by omega)

theorem Follows.run (follows : history.Follows mask) (steps : List (Traffic α)) :
    (history.run steps).Follows mask := by
  induction steps generalizing history with
  | nil => exact follows
  | cons first rest ih => exact ih (follows.step first)

end History

/-! ## What a walk shows -/

section Walk

variable {α : Type} {mask : UInt32} {passed limit : Nat}

theorem walk_eq {iterator : PopIterator} (isMask : IsMask mask)
    (stands : iterator.Stands mask passed limit) :
    walk mask (limit - passed + 1) iterator =
      some ((List.range (limit - passed)).map fun offset => slotOf mask (passed + offset)) := by
  generalize left : limit - passed = count
  induction count generalizing iterator passed with
  | zero =>
      have ordered := stands.ordered
      rw [walk, stands.next_eq isMask, if_pos (by omega)]
      rfl
  | succ count ih =>
      rw [walk, stands.next_eq isMask, if_neg (by omega)]
      dsimp only
      rw [ih (stands.advance isMask (by omega)) (by omega), Option.map_some, List.range_succ_eq_map,
        List.map_cons, List.map_map, Nat.add_zero]
      congr 2
      apply List.map_congr_left
      intro offset _
      rw [Function.comp_apply, Nat.succ_eq_add_one, Nat.add_right_comm, Nat.add_assoc]

/-- A walk that ends has one result. -/
theorem walk_more {iterator : PopIterator} {rounds : Nat} {slots : List UInt32}
    (ends : walk mask rounds iterator = some slots) (more : Nat) :
    walk mask (rounds + more) iterator = some slots := by
  induction rounds generalizing iterator slots with
  | zero => cases ends
  | succ rounds ih =>
      rw [Nat.succ_add, walk]
      rw [walk] at ends
      cases next : iterator.next mask with
      | none =>
          rw [next] at ends
          exact ends
      | some found =>
          rw [next] at ends
          obtain ⟨rest, tail, rfl⟩ := Option.map_eq_some_iff.mp ends
          dsimp only
          rw [ih tail]
          rfl

theorem walk_unique {iterator : PopIterator} {rounds rounds' : Nat} {slots slots' : List UInt32}
    (ends : walk mask rounds iterator = some slots)
    (ends' : walk mask rounds' iterator = some slots') : slots = slots' := by
  have more := walk_more ends rounds'
  rw [Nat.add_comm, walk_more ends' rounds] at more
  exact (Option.some.inj more).symm

theorem next_moves {iterator : PopIterator} {found : UInt32 × PopIterator}
    (next : iterator.next mask = some found) : found.2 = { iterator with head := found.1 } := by
  rw [PopIterator.next] at next
  split at next
  · cases next
  · cases next
    rfl

/-- A walk that finds a slot goes on from that slot. -/
theorem walk_cons {iterator : PopIterator} {rounds : Nat} {slots : List UInt32}
    (ends : walk mask (rounds + 1) iterator = some slots) :
    slots = [] ∨ ∃ slot rest, slots = slot :: rest ∧
      iterator.next mask = some (slot, { iterator with head := slot }) ∧
      walk mask rounds { iterator with head := slot } = some rest := by
  rw [walk] at ends
  cases next : iterator.next mask with
  | none =>
      rw [next] at ends
      exact .inl (Option.some.inj ends).symm
  | some found =>
      rw [next] at ends
      obtain ⟨rest, tail, rfl⟩ := Option.map_eq_some_iff.mp ends
      have moved := next_moves next
      exact .inr ⟨found.1, rest, rfl, by rw [← moved], moved ▸ tail⟩

/-- Behind each slot of a walk the walk goes on from that slot. -/
theorem walk_from {iterator : PopIterator} {rounds : Nat} {slots : List UInt32}
    (ends : walk mask rounds iterator = some slots) {slot : UInt32} (member : slot ∈ slots) :
    ∃ front rest rounds', slots = front ++ slot :: rest ∧
      walk mask rounds' { iterator with head := slot } = some rest := by
  induction rounds generalizing iterator slots with
  | zero => cases ends
  | succ rounds ih =>
      rcases walk_cons ends with rfl | ⟨first, rest, rfl, -, tail⟩
      · cases member
      · rcases List.mem_cons.mp member with rfl | behind
        · exact ⟨[], rest, rounds, rfl, tail⟩
        · obtain ⟨front, last, rounds', split, go⟩ := ih tail behind
          exact ⟨first :: front, last, rounds', by rw [split]; rfl, go⟩

/-- A walk that ends does not return to a slot. -/
theorem walk_nodup {iterator : PopIterator} {rounds : Nat} {slots : List UInt32}
    (ends : walk mask rounds iterator = some slots) : slots.Nodup := by
  induction rounds generalizing iterator slots with
  | zero => cases ends
  | succ rounds ih =>
      rcases walk_cons ends with rfl | ⟨first, rest, rfl, -, tail⟩
      · exact List.nodup_nil
      · refine List.nodup_cons.mpr ⟨?_, ih tail⟩
        intro again
        obtain ⟨front, last, rounds', split, go⟩ := walk_from tail again
        have same : rest = last := walk_unique tail go
        have length := congrArg List.length split
        rw [same, List.length_append, List.length_cons] at length
        omega

/-- The indices that a reset stores stand for the positions from 1 up to the
last slot. -/
theorem reset_stands (isMask : IsMask mask) :
    PopIterator.Stands { head := 0, tail := mask } mask (min 1 mask.toNat) mask.toNat where
  ordered := Nat.min_le_right 1 mask.toNat
  near := Nat.sub_le _ _
  head := by
    apply slotOf_eq_of_toNat isMask
    rcases Nat.eq_zero_or_pos mask.toNat with zero | positive
    · rw [zero, Nat.min_zero, Nat.zero_mod]
      rfl
    · rw [Nat.min_eq_left positive, Nat.add_comm, ← slotCount, Nat.mod_self]
      rfl
  tail := slotOf_eq_of_toNat isMask (Nat.mod_eq_of_lt (Nat.lt_succ_self _)).symm

/-- The slots that a walk over a reset ring shows. -/
def resetSlots (mask : UInt32) : List UInt32 :=
  (List.range (mask.toNat - min 1 mask.toNat)).map fun offset =>
    slotOf mask (min 1 mask.toNat + offset)

/-- The first and the last slot are not among them. -/
theorem mem_resetSlots (isMask : IsMask mask) (slot : UInt32) :
    slot ∈ resetSlots mask ↔ 1 ≤ slot.toNat ∧ slot.toNat < mask.toNat := by
  rw [resetSlots, List.mem_map]
  constructor
  · intro member
    obtain ⟨offset, inside, same⟩ := member
    rw [List.mem_range] at inside
    have value := slotOf_toNat isMask (min 1 mask.toNat + offset)
    rw [same, slotCount, Nat.mod_eq_of_lt (by omega)] at value
    omega
  · intro within
    obtain ⟨low, high⟩ := within
    refine ⟨slot.toNat - 1, List.mem_range.mpr (by omega), ?_⟩
    have place : min 1 mask.toNat + (slot.toNat - 1) = slot.toNat := by omega
    rw [place]
    exact (slotOf_eq_of_toNat isMask
      (Nat.mod_eq_of_lt (Nat.lt_succ_of_lt high)).symm).symm

theorem fixup_some {sections : List Section} {image : RingImage α} {reset : Bool}
    {fixed : FixedRing α} (accepted : image.fixup sections reset = some fixed) :
    ∃ name recTop, remap sections image.name 0 = some name ∧
      remap sections image.recTop (image.recordSize * (image.ring.capacity + 1)).toUInt64 =
        some recTop ∧
      fixed =
        { ring := if reset then { image.ring with head := 0, tail := image.ring.capacity }
            else image.ring
          name
          recTop } := by
  rw [RingImage.fixup] at accepted
  iterate 5
    split at accepted
    · cases accepted
  simp only [Option.bind_eq_bind, Option.bind_eq_some_iff] at accepted
  obtain ⟨name, named, recTop, found, same⟩ := accepted
  exact ⟨name, recTop, named, found, (Option.some.inj same).symm⟩

/-- Either kind of fixup keeps the ring, but for the indices of a reset. -/
theorem fixup_ring {sections : List Section} {image : RingImage α} {reset : Bool}
    {fixed : FixedRing α} (accepted : image.fixup sections reset = some fixed) :
    fixed.ring = if reset then { image.ring with head := 0, tail := image.ring.capacity }
      else image.ring := by
  obtain ⟨name, recTop, -, -, rfl⟩ := fixup_some accepted
  rfl

theorem slotOf_toNat_low (isMask : IsMask mask) {position : Nat} (low : position ≤ mask.toNat) :
    (slotOf mask position).toNat = position := by
  rw [slotOf_toNat isMask, slotCount, Nat.mod_eq_of_lt (Nat.lt_succ_of_le low)]

theorem slotOf_mem_resetSlots (isMask : IsMask mask) {position : Nat}
    (low : position ≤ mask.toNat) :
    slotOf mask position ∈ resetSlots mask ↔ 1 ≤ position ∧ position < mask.toNat := by
  rw [mem_resetSlots isMask, slotOf_toNat_low isMask low]

section Covering

variable {history : History α} {reserved : UInt32}

/-- The slots that a walk over the pending records shows. -/
def pendingSlots (mask : UInt32) (history : History α) : List UInt32 :=
  (List.range (history.committed.length - history.consumed)).map fun offset =>
    slotOf mask (history.consumed + offset)

/-- In a ring whose last slot was never committed, the reset leaves out slot 0
only. -/
theorem resetSlots_cover (isMask : IsMask mask) (follows : history.Follows mask)
    (read : 1 ≤ history.consumed) (low : history.committed.length ≤ mask.toNat) :
    (∀ slot ∈ pendingSlots mask history, slot ∈ resetSlots mask) ∧
      ∀ slot ∈ history.committed, slot = 0 ∨ slot ∈ resetSlots mask := by
  constructor
  · intro slot member
    obtain ⟨offset, inside, rfl⟩ := List.mem_map.mp member
    rw [List.mem_range] at inside
    rw [slotOf_mem_resetSlots isMask (by omega)]
    omega
  · intro slot member
    rw [follows.committed] at member
    obtain ⟨position, inside, rfl⟩ := List.mem_map.mp member
    rw [List.mem_range] at inside
    rw [slotOf_mem_resetSlots isMask (by omega), ← UInt32.toNat_inj,
      slotOf_toNat_low isMask (by omega)]
    change position = 0 ∨ _
    omega

/-- What the first slot, the oldest pending record and the last slot need to
be covered. -/
theorem resetSlots_miss (isMask : IsMask mask) (follows : history.Follows mask)
    (some : history.committed ≠ [])
    (included : ∀ slot ∈ pendingSlots mask history, slot ∈ resetSlots mask)
    (covered : ∀ slot ∈ history.committed, slot = reserved ∨ slot ∈ resetSlots mask) :
    reserved = 0 ∧ 1 ≤ history.consumed ∧ history.committed.length ≤ mask.toNat := by
  have nonempty := List.length_pos_iff.mpr some
  have mem_committed {position : Nat} (inside : position < history.committed.length) :
      slotOf mask position ∈ history.committed := by
    rw [follows.committed]
    exact List.mem_map_of_mem (List.mem_range.mpr inside)
  have first : reserved = 0 := by
    rcases covered _ (mem_committed nonempty) with same | shown
    · rw [← same, ← UInt32.toNat_inj, slotOf_toNat_low isMask (Nat.zero_le _)]
      rfl
    · rw [slotOf_mem_resetSlots isMask (Nat.zero_le _)] at shown
      omega
  refine ⟨first, ?_, ?_⟩
  · by_contra unread
    have oldest : slotOf mask history.consumed ∈ pendingSlots mask history :=
      List.mem_map.mpr ⟨0, List.mem_range.mpr (by omega), rfl⟩
    have shown := (slotOf_mem_resetSlots isMask (by omega)).mp (included _ oldest)
    omega
  · by_contra filled
    rcases covered _ (mem_committed (Nat.lt_of_not_le filled)) with same | shown
    · have value := slotOf_toNat_low isMask (Nat.le_refl mask.toNat)
      rw [same, first] at value
      exact mt follows.single some value.symm
    · rw [slotOf_mem_resetSlots isMask (Nat.le_refl _)] at shown
      omega

end Covering

/-- The dump of the whole ring shows the records of the default dump and every
committed slot but `reserved`, exactly if nothing was committed, or if the
slot 0 is the reserved one and was consumed while the last slot was never
committed. -/
theorem dump_all_iff (isMask : IsMask mask) (blocking : Bool) (slots : UInt32 → α)
    (steps : List (Traffic α)) {image : RingImage α}
    (reached : image.ring = ((History.fresh mask blocking slots).run steps).ring)
    {sections : List Section} {pending whole : FixedRing α}
    (accepted : image.fixup sections false = some pending)
    (accepted' : image.fixup sections true = some whole) (reserved : UInt32) :
    (∃ rounds shown dumped,
      walk pending.ring.capacity rounds (.reset pending.ring) = some shown ∧
      walk whole.ring.capacity rounds (.reset whole.ring) = some dumped ∧
      (∀ slot ∈ shown, slot ∈ dumped) ∧
      ∀ slot ∈ ((History.fresh mask blocking slots).run steps).committed,
        slot = reserved ∨ slot ∈ dumped) ↔
    ((History.fresh mask blocking slots).run steps).committed = [] ∨
      reserved = 0 ∧ 1 ≤ ((History.fresh mask blocking slots).run steps).consumed ∧
        ((History.fresh mask blocking slots).run steps).committed.length ≤ mask.toNat := by
  have follows := (History.fresh_follows isMask blocking slots).run steps
  generalize (History.fresh mask blocking slots).run steps = history at *
  have pendingRing : pending.ring = history.ring := (fixup_ring accepted).trans reached
  have wholeRing : whole.ring = { history.ring with head := 0, tail := history.ring.capacity } :=
    (fixup_ring accepted').trans (by rw [if_pos rfl, reached])
  have capacity := follows.capacity
  have stands : (PopIterator.reset pending.ring).Stands mask history.consumed
      history.committed.length := by
    rw [pendingRing, ← capacity]
    exact PopIterator.Stands.reset follows.spans
  have reset : PopIterator.reset whole.ring = { head := 0, tail := mask } := by
    rw [wholeRing, PopIterator.reset, capacity]
  have pendingMask : pending.ring.capacity = mask := by rw [pendingRing, capacity]
  have wholeMask : whole.ring.capacity = mask := by rw [wholeRing, capacity]
  have shownEq := walk_eq isMask stands
  have dumpedEq := walk_eq isMask (reset_stands isMask)
  rw [pendingMask, wholeMask, reset]
  constructor
  · intro ⟨rounds, shown, dumped, shownWalk, dumpedWalk, included, covered⟩
    rw [walk_unique dumpedWalk dumpedEq] at included covered
    rw [walk_unique shownWalk shownEq] at included
    by_cases none : history.committed = []
    · exact .inl none
    · exact .inr (resetSlots_miss isMask follows none included covered)
  · intro either
    refine ⟨_, _, _, walk_more shownEq _, by rw [Nat.add_comm]; exact walk_more dumpedEq _, ?_⟩
    rcases either with none | ⟨first, read, low⟩
    · rw [none]
      refine ⟨?_, List.forall_mem_nil _⟩
      intro slot absent
      rw [List.length_nil, Nat.zero_sub] at absent
      cases absent
    · rw [first]
      exact resetSlots_cover isMask follows read low

end Walk

section FourSlots

/-- The image of a ring of four slots after some traffic, in one section. -/
def fourSlots (steps : List (Traffic Nat)) : RingImage Nat where
  ring := ((History.fresh 3 false fun _ => 0).run steps).ring
  prio := 10
  recShift := 8
  recTailroom := 224
  name := 0x1000
  recTop := 0x2000

def fourSlotsMemory : List Section :=
  [{ vma := 0x1000, size := 0x2000, addr := some [], abfd := .core }]

/-- One record was pushed and popped: the dump shows the slots 1 and 2, and
only the slot 0 was committed. -/
theorem dump_all_covers_read_record :
    ∃ pending whole rounds shown dumped,
      (fourSlots [.push 7, .pop]).fixup fourSlotsMemory false = some pending ∧
      (fourSlots [.push 7, .pop]).fixup fourSlotsMemory true = some whole ∧
      walk pending.ring.capacity rounds (.reset pending.ring) = some shown ∧
      walk whole.ring.capacity rounds (.reset whole.ring) = some dumped ∧
      (∀ slot ∈ shown, slot ∈ dumped) ∧
      ∀ slot ∈ ((History.fresh 3 false fun _ => 0).run [.push 7, .pop]).committed,
        slot = 0 ∨ slot ∈ dumped := by
  have covers := (@dump_all_iff Nat 3 ⟨2, rfl⟩ false (fun _ => 0) [.push 7, .pop]
    (fourSlots [.push 7, .pop]) rfl fourSlotsMemory _ _ rfl rfl 0).mpr
    (.inr ⟨rfl, Nat.le_refl 1, by decide⟩)
  obtain ⟨rounds, shown, dumped, rest⟩ := covers
  exact ⟨_, _, rounds, shown, dumped, rfl, rfl, rest⟩

/-- A record that waits in the slot 0 is left out of the whole dump. -/
theorem pending_record_not_dumped :
    ∃ pending whole,
      (fourSlots [.push 7]).fixup fourSlotsMemory false = some pending ∧
      (fourSlots [.push 7]).fixup fourSlotsMemory true = some whole ∧
      walk pending.ring.capacity 4 (.reset pending.ring) = some [0] ∧
      walk whole.ring.capacity 4 (.reset whole.ring) = some [1, 2] :=
  ⟨_, _, rfl, rfl, rfl, rfl⟩

end FourSlots

end Hogl.Recover
