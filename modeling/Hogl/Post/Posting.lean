import Hogl.Post.RecordRing
import Hogl.Record.Overrun
import Hogl.Record.Storage
import Mathlib.Order.CompletePartialOrder
import Mathlib.Order.Interval.Set.Basic
import Mathlib.Order.Interval.Set.Disjoint

namespace Hogl

open Hogl.Data Hogl.Ring

/-! # What a posted record holds

Each data argument gets the bytes behind the arguments stored before it. -/

namespace Arg

variable {tailroom index : Nat} {args : List Arg} {arg : Arg}

/-- Where the data of the argument at `index` goes. -/
def offsetAt (tailroom : Nat) (args : List Arg) (index : Nat) : Nat :=
  (args.take index).foldl (advance tailroom) (8 * slotsUsed args)

/-- How many bytes are left for the argument at `index`. -/
def roomAt (tailroom : Nat) (args : List Arg) (index : Nat) : Nat :=
  tailroom - offsetAt tailroom args index

theorem offsetAt_succ (found : args[index]? = some arg) :
    offsetAt tailroom args (index + 1) =
      offsetAt tailroom args index + (arg.image (roomAt tailroom args index)).length := by
  rw [offsetAt, List.take_add_one, found, Option.toList_some, List.foldl_append]
  rfl

/-- The offset never passes the end of the record. -/
theorem offsetAt_le (slots : 8 * slotsUsed args ≤ tailroom) (index : Nat) :
    offsetAt tailroom args index ≤ tailroom := by
  induction index with
  | zero => exact slots
  | succ index ih =>
      cases found : args[index]? with
      | none =>
          rw [offsetAt, List.take_add_one, found, Option.toList_none, List.append_nil]
          exact ih
      | some arg =>
          have bound := arg.image_length_le (roomAt tailroom args index)
          rw [offsetAt_succ found]
          rw [roomAt] at bound ⊢
          omega

theorem offsetAt_mono {later : Nat} (order : index ≤ later) :
    offsetAt tailroom args index ≤ offsetAt tailroom args later := by
  induction order with
  | refl => exact Nat.le_refl _
  | @step later _ ih =>
      refine Nat.le_trans ih ?_
      cases found : args[later]? with
      | none =>
          rw [offsetAt, offsetAt, List.take_add_one, found, Option.toList_none, List.append_nil]
      | some arg =>
          rw [offsetAt_succ found]
          exact Nat.le_add_right _ _

theorem slots_le_offsetAt (tailroom : Nat) (args : List Arg) (index : Nat) :
    8 * slotsUsed args ≤ offsetAt tailroom args index :=
  offsetAt_mono (Nat.zero_le index)

/-- An argument ends where a later one may begin. -/
theorem image_end_le (tailroom : Nat) {later : Nat} (found : args[index]? = some arg)
    (order : index < later) :
    offsetAt tailroom args index + (arg.image (roomAt tailroom args index)).length ≤
      offsetAt tailroom args later := by
  rw [← offsetAt_succ found]
  exact offsetAt_mono order

theorem slot_lt_slotsUsed (found : args[index]? = some arg) (set : arg ≠ .none) :
    index < slotsUsed args := by
  by_contra beyond
  have unset := getD_of_slotsUsed_le (Nat.le_of_not_lt beyond)
  rw [List.getD_eq_getElem?_getD, found] at unset
  exact set unset

end Arg

namespace Record

variable {record : Record} {args : List Arg} {arg : Arg} {index tailroom : Nat}

theorem StoredFrom.get {first offset : Nat} (stored : record.StoredFrom tailroom first offset args)
    (found : args[index]? = some arg) :
    record.Stored (first + index) arg ((args.take index).foldl (Arg.advance tailroom) offset)
      (tailroom - (args.take index).foldl (Arg.advance tailroom) offset) := by
  induction args generalizing first offset index with
  | nil => simp at found
  | cons head args ih =>
      cases index with
      | zero =>
          simp only [List.getElem?_cons_zero, Option.some.injEq] at found
          subst head
          exact stored.1
      | succ index =>
          have rest := ih stored.2 (List.getElem?_cons_succ ▸ found)
          rwa [show first + 1 + index = first + (index + 1) by omega] at rest

/-- The bytes written for the data argument at `index`, as a set of offsets
into the argument memory. -/
def dataRegion (record : Record) (args : List Arg) (tailroom index : Nat) : Set Nat :=
  let size := ((args.getD index .none).image (Arg.roomAt tailroom args index)).length
  Set.Ico (record.dataOffset index) (record.dataOffset index + size)

/-- The bytes of a value slot. -/
def slotRegion (index : Nat) : Set Nat := Set.Ico (8 * index) (8 * index + 8)

/-- The record holds `args`: types, values and data read back, and the data
stands inside the record and apart. -/
structure Holds (record : Record) (args : List Arg) (tailroom : Nat) : Prop where
  memory : record.argval.length = tailroom
  types : ∀ index < nargs, record.getArgType index = (args.getD index .none).type
  values : ∀ index (type : ValueType) (val : UInt64), args[index]? = some (Arg.value type val) →
    if type.argType.is32bit then record.getArgVal32 index = val.toUInt32
    else record.getArgVal64 index = val
  data : ∀ index arg, args[index]? = some arg → arg.type.isSimple = false →
    record.getArgData index = arg.payload (Arg.roomAt tailroom args index) ∧
      record.dataLen index = (arg.payload (Arg.roomAt tailroom args index)).length ∧
      readAt record.argval (record.dataOffset index)
        (arg.image (Arg.roomAt tailroom args index)).length =
          arg.image (Arg.roomAt tailroom args index)
  inside : ∀ index arg, args[index]? = some arg → arg.type.isSimple = false →
    record.dataRegion args tailroom index ⊆ Set.Ico 0 tailroom
  apart : ∀ first second arg other, first ≠ second →
    args[first]? = some arg → arg.type.isSimple = false →
    args[second]? = some other → other.type.isSimple = false →
    Disjoint (record.dataRegion args tailroom first) (record.dataRegion args tailroom second)
  clear : ∀ index slot arg other, args[index]? = some arg → arg.type.isSimple = false →
    args[slot]? = some other → other ≠ .none →
    Disjoint (record.dataRegion args tailroom index) (slotRegion slot)

theorem Stored.holdsData {offset room : Nat} (stored : record.Stored index arg offset room)
    (complex : arg.type.isSimple = false) : record.HoldsData index arg offset room := by
  cases arg with
  | none => simp [Arg.type, ArgType.isSimple] at complex
  | value type val => cases type <;> simp [Arg.type, ValueType.argType, ArgType.isSimple] at complex
  | cstr | raw | xdump => exact stored

/-- The region written for a data argument starts at its running offset,
unless it is empty. -/
theorem dataRegion_eq (stored : record.StoredFrom tailroom 0 (8 * Arg.slotsUsed args) args)
    (found : args[index]? = some arg) (complex : arg.type.isSimple = false) :
    record.dataRegion args tailroom index = Set.Ico (Arg.offsetAt tailroom args index)
      (Arg.offsetAt tailroom args index + (arg.image (Arg.roomAt tailroom args index)).length) := by
  have holds := (stored.get found).holdsData complex
  rw [Nat.zero_add] at holds
  have same : args.getD index .none = arg := by rw [List.getD_eq_getElem?_getD, found]; rfl
  simp only [dataRegion, same]
  by_cases stands : arg.image (Arg.roomAt tailroom args index) = []
  · simp [stands]
  · rw [holds.place stands]
    rfl

/-- What the encoders leave behind, argument by argument. -/
theorem StoredFrom.holds (memory : record.argval.length = tailroom)
    (slots : 8 * Arg.slotsUsed args ≤ tailroom)
    (types : ∀ index < nargs, record.getArgType index = (args.getD index .none).type)
    (stored : record.StoredFrom tailroom 0 (8 * Arg.slotsUsed args) args) :
    record.Holds args tailroom where
  memory := memory
  types := types
  values index type val found := by
    have held := stored.get found
    rw [Nat.zero_add] at held
    exact held
  data index arg found complex := by
    have holds := (stored.get found).holdsData complex
    rw [Nat.zero_add] at holds
    refine ⟨holds.getArgData_eq, holds.len, ?_⟩
    by_cases stands : arg.image (Arg.roomAt tailroom args index) = []
    · simp [stands, readAt_zero]
    · rw [holds.place stands]
      exact holds.image
  inside index arg found complex := by
    rw [dataRegion_eq stored found complex]
    apply Set.Ico_subset_Ico (Nat.zero_le _)
    have bound := arg.image_length_le (Arg.roomAt tailroom args index)
    have below := Arg.offsetAt_le slots index
    rw [Arg.roomAt] at bound ⊢
    omega
  apart first second arg other different found complex found' complex' := by
    rw [dataRegion_eq stored found complex, dataRegion_eq stored found' complex',
      Set.Ico_disjoint_Ico]
    rcases Nat.lt_or_gt_of_ne different with before | behind
    · have ordered := Arg.image_end_le tailroom found before
      omega
    · have ordered := Arg.image_end_le tailroom found' behind
      omega
  clear index slot arg other found complex found' set := by
    have used := Arg.slot_lt_slotsUsed found' set
    have above := Arg.slots_le_offsetAt tailroom args index
    rw [dataRegion_eq stored found complex, slotRegion, Set.Ico_disjoint_Ico]
    omega

end Record

namespace Post

/-- A ring of the constructor, in any state its users bring it to. -/
inductive Built (opts : Options) : RecordRing → Prop where
  | constructed {ring : RecordRing} (made : RecordRing.construct opts = some ring) : Built opts ring
  | posted {ring after : RecordRing} {timestamp : UInt64} {area : Option Area} {sect : UInt32}
      {args : List Arg} {scratch : Argpack} {outcome : PushOutcome} (built : Built opts ring)
      (few : args.length ≤ Record.nargs) (bounded : ∀ arg ∈ args, arg.Bounded)
      (pushed : ring.pushUnlocked timestamp area sect args scratch = some (outcome, after)) :
      Built opts after
  | consumed {ring : RecordRing} (built : Built opts ring) (head : UInt32) :
      Built opts { ring with ring := ring.ring.commitHead head }
  | reset {ring : RecordRing} (built : Built opts ring) : Built opts ring.reset

theorem pushCommit_slots (ring : Ringbuf Record) : ring.pushCommit.2.slots = ring.slots := by
  unfold Ringbuf.pushCommit
  split
  · split <;> rfl
  · rfl

/-- A push stores its arguments in the slot it claimed and touches no other
record. -/
theorem pushUnlocked_spec {ring : RecordRing} {args : List Arg} (sized : ring.Sized)
    (few : args.length ≤ Record.nargs) (bounded : ∀ arg ∈ args, arg.Bounded)
    (timestamp : UInt64) (area : Option Area) (sect : UInt32) (scratch : Argpack) :
    ∃ outcome after, ring.pushUnlocked timestamp area sect args scratch = some (outcome, after) ∧
      after.recTailroom = ring.recTailroom ∧
      (∀ slot, slot ≠ ring.ring.tail → after.ring.slots slot = ring.ring.slots slot) ∧
      (after.ring.slots ring.ring.tail).Holds args ring.recTailroom.toNat := by
  rcases begun : ring.beginUnlocked timestamp area sect with ⟨slot, started⟩
  have slotEq : slot = ring.ring.tail := (congrArg Prod.fst begun).symm
  have startedEq := (congrArg Prod.snd begun).symm
  simp only at startedEq
  have memory : (started.ring.slots slot).argval.length = ring.recTailroom.toNat := by
    rw [startedEq, slotEq, ← sized.slots ring.ring.tail]
    simp [RecordRing.beginUnlocked, Ringbuf.incSeqnum, Ringbuf.store, Ringbuf.pushBegin]
  have sameRoom : started.recTailroom = ring.recTailroom := by rw [startedEq]; rfl
  obtain ⟨record, encoded, -, length, types, stored⟩ := Record.encodeArgs_spec scratch few bounded
    memory sized.room
  have slots := sized.room
  have used := Arg.slotsUsed_le args
  have holds := stored.holds length
    (by simp only [Record.nargs, Record.argvalSize] at few slots; omega) types
  let filled : RecordRing := { started with ring := started.ring.store slot record }
  refine ⟨filled.finishUnlocked.1, filled.finishUnlocked.2, ?_, sameRoom, ?_, ?_⟩
  · rw [← sameRoom] at encoded
    simp only [RecordRing.pushUnlocked, begun, encoded, Option.bind_eq_bind, Option.bind_some]
    rfl
  · intro other different
    change (started.ring.store slot record).pushCommit.2.slots other = _
    rw [pushCommit_slots, startedEq, slotEq]
    simp [Ringbuf.store, Ringbuf.incSeqnum, RecordRing.beginUnlocked, different, Ringbuf.pushBegin]
  · change ((started.ring.store slot record).pushCommit.2.slots ring.ring.tail).Holds args _
    rw [pushCommit_slots, slotEq]
    simpa [Ringbuf.store] using holds

theorem Sized.posted {ring after : RecordRing} {args : List Arg} {timestamp : UInt64}
    {area : Option Area} {sect : UInt32} {scratch : Argpack} {outcome : PushOutcome}
    (sized : ring.Sized) (few : args.length ≤ Record.nargs) (bounded : ∀ arg ∈ args, arg.Bounded)
    (pushed : ring.pushUnlocked timestamp area sect args scratch = some (outcome, after)) :
    after.Sized := by
  obtain ⟨outcome', after', result, sameRoom, others, holds⟩ :=
    pushUnlocked_spec sized few bounded timestamp area sect scratch
  rw [pushed, Option.some.injEq, Prod.mk.injEq] at result
  obtain ⟨rfl, rfl⟩ := result
  refine ⟨fun slot => ?_, by rw [sameRoom]; exact sized.room, by rw [sameRoom]; exact sized.limit⟩
  by_cases claimed : slot = ring.ring.tail
  · rw [claimed, sameRoom, holds.memory]
  · rw [others slot claimed, sameRoom, sized.slots]

/-- On a ring whose record size wrapped only empty argument lists are posted. -/
theorem pushUnlocked_roomless {ring after : RecordRing} {args : List Arg} {timestamp : UInt64}
    {area : Option Area} {sect : UInt32} {scratch : Argpack} {outcome : PushOutcome}
    (roomless : ring.Roomless) (few : args.length ≤ Record.nargs)
    (pushed : ring.pushUnlocked timestamp area sect args scratch = some (outcome, after)) :
    (∀ arg ∈ args, arg = .none) ∧ after.Roomless ∧
      (after.ring.slots ring.ring.tail).argtype = 0 := by
  rcases begun : ring.beginUnlocked timestamp area sect with ⟨slot, started⟩
  have startedEq := (congrArg Prod.snd begun).symm
  simp only at startedEq
  have empty : ∀ slot, (started.ring.slots slot).argval = [] := by
    intro other
    rw [startedEq]
    simp only [RecordRing.beginUnlocked, Ringbuf.incSeqnum, Ringbuf.store, Ringbuf.pushBegin]
    by_cases claimed : other = ring.ring.tail
    · simpa only [claimed, if_true] using roomless ring.ring.tail
    · simpa only [claimed, if_false] using roomless other
  simp only [RecordRing.pushUnlocked, begun] at pushed
  obtain ⟨record, encoded, finished⟩ := Option.bind_eq_some_iff.mp pushed
  obtain ⟨unset, rfl⟩ := Record.encodeArgs_some few (empty slot) encoded
  have afterEq : after.ring.slots = (started.ring.store slot
      { started.ring.slots slot with argtype := 0 }).slots := by
    have pushedRing : _ = after := congrArg Prod.snd (Option.some.inj finished)
    rw [← pushedRing]
    exact pushCommit_slots _
  refine ⟨unset, fun other => ?_, ?_⟩
  · simp only [afterEq, Ringbuf.store]
    by_cases claimed : other = slot
    · simpa only [claimed, if_true] using empty slot
    · simpa only [claimed, if_false] using empty other
  · rw [afterEq, show ring.ring.tail = slot from congrArg Prod.fst begun]
    simp only [Ringbuf.store, if_true]

theorem Built.sized_or_roomless {opts : Options} {ring : RecordRing} (built : Built opts ring) :
    ring.Sized ∨ ring.Roomless := by
  induction built with
  | constructed made => exact (RecordRing.construct_sized made).imp id And.right
  | posted _ few bounded pushed usable =>
      exact usable.imp (Sized.posted · few bounded pushed)
        fun roomless => (pushUnlocked_roomless roomless few pushed).2.1
  | consumed _ _ usable =>
      exact usable.imp (fun sized => ⟨sized.slots, sized.room, sized.limit⟩) id
  | reset _ usable =>
      exact usable.imp (fun sized => ⟨sized.slots, sized.room, sized.limit⟩) id

theorem Built.sized {opts : Options} {ring : RecordRing} (built : Built opts ring)
    (unwrapped : opts.recordTailroom.toNat < 2 ^ 32 - 32) : ring.Sized := by
  induction built with
  | constructed made =>
      rcases RecordRing.construct_sized made with sized | ⟨wrapped, -⟩
      · exact sized
      · omega
  | posted _ few bounded pushed sized => exact Sized.posted sized few bounded pushed
  | consumed _ _ sized => exact ⟨sized.slots, sized.room, sized.limit⟩
  | reset _ sized => exact ⟨sized.slots, sized.room, sized.limit⟩

/-- Posting keeps every byte it writes inside the record, keeps the data of
different arguments apart, and stores what `get_arg_type`, `get_arg_val32`,
`get_arg_val64` and `get_arg_data` then read back. -/
theorem push_stores_arguments {opts : Options} {ring : RecordRing} {args : List Arg}
    (small : opts.recordTailroom.toNat ≤ 2 ^ 30) (built : Built opts ring)
    (few : args.length ≤ Record.nargs) (bounded : ∀ arg ∈ args, arg.Bounded)
    (timestamp : UInt64) (area : Option Area) (sect : UInt32) (scratch : Argpack) :
    ∃ outcome after, ring.pushUnlocked timestamp area sect args scratch = some (outcome, after) ∧
      (after.ring.slots ring.ring.tail).Holds args ring.recTailroom.toNat := by
  obtain ⟨outcome, after, pushed, -, -, holds⟩ :=
    pushUnlocked_spec (built.sized (by omega)) few bounded timestamp area sect scratch
  exact ⟨outcome, after, pushed, holds⟩

/-- A ring with the default options takes a string, a hole, a value and a dump. -/
theorem push_stores_arguments_default :
    ∃ ring outcome after, RecordRing.construct ⟨1024, false, 128⟩ = some ring ∧
      ring.pushUnlocked 7 none 1 [.cstr (ascii "hello"), .none, .value .int32 5,
        .xdump ⟨0x64, 4, 0, 0, 0x20⟩ (leBytes 8 12)] ⟨0, fun _ => 0, fun _ => .none, fun _ => 0⟩ =
          some (outcome, after) ∧
      (after.ring.slots ring.ring.tail).Holds [.cstr (ascii "hello"), .none, .value .int32 5,
        .xdump ⟨0x64, 4, 0, 0, 0x20⟩ (leBytes 8 12)] ring.recTailroom.toNat := by
  obtain ⟨ring, made⟩ : ∃ ring, RecordRing.construct ⟨1024, false, 128⟩ = some ring := ⟨_, rfl⟩
  obtain ⟨outcome, after, pushed, holds⟩ := @push_stores_arguments _ _
    [.cstr (ascii "hello"), .none, .value .int32 5, .xdump ⟨0x64, 4, 0, 0, 0x20⟩ (leBytes 8 12)]
    (by decide) (.constructed made) (by decide)
    (by simp [Arg.Bounded, Arg.data, ascii, leBytes]) 7 none 1
    ⟨0, fun _ => 0, fun _ => .none, fun _ => 0⟩
  exact ⟨ring, outcome, after, made, pushed, holds⟩

end Post

end Hogl
