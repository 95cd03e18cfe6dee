import Hogl.Post.Posting

namespace Hogl

open Hogl.Data Hogl.Ring

/-! # Open-coded posts

The sequence of `tests/rawrec_test.cc`: `begin_unlocked`, then a type and a
value for each argument, then `finish_unlocked`.  Unlike `set_args` it does
not start with a cleared type word. -/

/-- The call that stores the value of an argument. -/
inductive OpenValue where
  | val32 (val : UInt32)
  | val64 (val : UInt64)
  | data (offset len : UInt32)
deriving Repr, DecidableEq

structure OpenArg where
  type : BitVec 4
  value : OpenValue
deriving Repr, DecidableEq

namespace Record

/-- `set_arg_type` and the `set_arg_val*` or `set_arg_data` that goes with it. -/
def setOpenArg (record : Record) (index : Nat) (arg : OpenArg) : Option Record :=
  let record := record.setArgType index (.ofNibble arg.type)
  match arg.value with
  | .val32 val => record.setArgVal32 index val
  | .val64 val => record.setArgVal64 index val
  | .data offset len => record.setArgData index offset len

def setOpenArgsFrom : List OpenArg → Nat → Record → Option Record
  | [], _, record => some record
  | arg :: args, index, record => do
      let record ← record.setOpenArg index arg
      setOpenArgsFrom args (index + 1) record

end Record

/-- The type that the argument at `index` is given, `NONE` behind the last one. -/
def openType (args : List OpenArg) (index : Nat) : BitVec 4 := (args.map OpenArg.type).getD index 0

namespace Post.RecordRing

/-- The locked variants run the same steps under the mutex of the ring. -/
def openCoded (ring : RecordRing) (timestamp : UInt64) (area : Option Area) (sect : UInt32)
    (args : List OpenArg) : Option (PushOutcome × RecordRing) := do
  let (slot, ring) := ring.beginUnlocked timestamp area sect
  let record ← (ring.ring.slots slot).setOpenArgsFrom args 0
  return finishUnlocked { ring with ring := ring.ring.store slot record }

end Post.RecordRing

theorem ArgType.code_ofNibble : ∀ type : BitVec 4, (ArgType.ofNibble type).code = type := by decide

theorem ArgType.ofNibble_inj {first second : BitVec 4} :
    ArgType.ofNibble first = ArgType.ofNibble second ↔ first = second := by
  constructor
  · intro same
    rw [← code_ofNibble first, same, code_ofNibble]
  · intro same
    rw [same]

namespace Record

/-- A value leaves the type word alone, the type is merged into it. -/
theorem setOpenArg_spec (record : Record) {index : Nat} (arg : OpenArg)
    (inside : 8 * index + 8 ≤ record.argval.length) :
    ∃ after, record.setOpenArg index arg = some after ∧
      after.argtype = orNibble record.argtype index arg.type ∧
      after.argval.length = record.argval.length := by
  have typed : (record.setArgType index (.ofNibble arg.type)).argtype =
      orNibble record.argtype index arg.type := by
    rw [setArgType, ArgType.code_ofNibble]
  cases value : arg.value with
  | val32 val =>
      obtain ⟨argval, written, stored⟩ := write_exists (record.setArgType index (.ofNibble arg.type))
        (8 * index) (leBytes 4 val.toNat) (by rw [leBytes_length]; change _ ≤ record.argval.length; omega)
      refine ⟨{ record.setArgType index (.ofNibble arg.type) with argval }, ?_, typed,
        writeAt_length written⟩
      simp only [setOpenArg, value]
      exact stored
  | val64 val =>
      obtain ⟨argval, written, stored⟩ := write_exists (record.setArgType index (.ofNibble arg.type))
        (8 * index) (leBytes 8 val.toNat) (by rw [leBytes_length]; exact inside)
      refine ⟨{ record.setArgType index (.ofNibble arg.type) with argval }, ?_, typed,
        writeAt_length written⟩
      simp only [setOpenArg, value]
      exact stored
  | data offset len =>
      obtain ⟨after, stored, same, _⟩ :=
        setArgData_spec (record.setArgType index (.ofNibble arg.type)) index offset len inside
      refine ⟨after, ?_, ?_, same.length⟩
      · simp only [setOpenArg, value]
        exact stored
      · rw [same.header]
        exact typed

theorem setOpenArg_some {record after : Record} {index : Nat} {arg : OpenArg}
    (stored : record.setOpenArg index arg = some after) : record.argval ≠ [] := by
  intro empty
  have lost (place : Nat) (bytes : List UInt8) (written : bytes ≠ []) :
      (record.setArgType index (.ofNibble arg.type)).write place bytes = none := by
    rw [Option.eq_none_iff_forall_ne_some]
    intro result found
    have inside := (write_some found).1
    have short := List.length_pos_of_ne_nil written
    rw [show (record.setArgType index (.ofNibble arg.type)).argval = [] from empty] at inside
    simp only [List.length_nil] at inside
    omega
  have bytes (width value : Nat) : leBytes (width + 1) value ≠ [] := by
    intro nothing
    have size := leBytes_length (width + 1) value
    rw [nothing] at size
    cases size
  cases value : arg.value with
  | val32 val => simp [setOpenArg, value, setArgVal32, lost _ _ (bytes _ _)] at stored
  | val64 val => simp [setOpenArg, value, setArgVal64, lost _ _ (bytes _ _)] at stored
  | data offset len => simp [setOpenArg, value, setArgData, lost _ _ (bytes _ _)] at stored

theorem openType_cons (arg : OpenArg) (args : List OpenArg) (index : Nat) :
    openType (arg :: args) (index + 1) = openType args index := rfl

theorem setOpenArgsFrom_spec (args : List OpenArg) {record : Record} {index : Nat}
    (inside : 8 * (index + args.length) ≤ record.argval.length) (few : index + args.length ≤ 16) :
    ∃ after, record.setOpenArgsFrom args index = some after ∧
      after.argval.length = record.argval.length ∧
      (∀ other < index, nibble after.argtype other = nibble record.argtype other) ∧
      ∀ offset, index + offset < 16 → nibble after.argtype (index + offset) =
        nibble record.argtype (index + offset) ||| openType args offset := by
  induction args generalizing record index with
  | nil =>
      refine ⟨record, rfl, rfl, fun _ _ => rfl, ?_⟩
      intro offset _
      exact (BitVec.or_zero).symm
  | cons arg args ih =>
      rw [List.length_cons] at inside few
      obtain ⟨next, stored, types, length⟩ := @setOpenArg_spec record index arg (by omega)
      obtain ⟨after, rest, length', before, behind⟩ := @ih next (index + 1)
        (by rw [length]; omega) (by omega)
      refine ⟨after, ?_, length'.trans length, ?_, ?_⟩
      · rw [setOpenArgsFrom, stored, Option.bind_eq_bind, Option.bind_some, rest]
      · intro other lower
        rw [before other (by omega), types, nibble_orNibble_other _ _ (by omega)]
      · intro offset bound
        cases offset with
        | zero =>
            rw [Nat.add_zero, before index (Nat.lt_succ_self index), types,
              nibble_orNibble_same _ _ (by omega)]
            rfl
        | succ offset =>
            have place : index + (offset + 1) = index + 1 + offset := by omega
            rw [place, behind offset (by omega), types, nibble_orNibble_other _ _ (by omega),
              openType_cons]

end Record

namespace Post

/-- What an open-coded post leaves in the slot it claimed. -/
theorem openCoded_spec {ring : RecordRing} {args : List OpenArg} (few : args.length ≤ Record.nargs)
    (inside : 8 * args.length ≤ (ring.ring.slots ring.ring.tail).argval.length)
    (timestamp : UInt64) (area : Option Area) (sect : UInt32) :
    ∃ outcome after, ring.openCoded timestamp area sect args = some (outcome, after) ∧
      after.recTailroom = ring.recTailroom ∧
      (∀ slot, (after.ring.slots slot).argval.length = (ring.ring.slots slot).argval.length) ∧
      ∀ index < Record.nargs, nibble (after.ring.slots ring.ring.tail).argtype index =
        nibble (ring.ring.slots ring.ring.tail).argtype index ||| openType args index := by
  rcases begun : ring.beginUnlocked timestamp area sect with ⟨slot, started⟩
  have slotEq : slot = ring.ring.tail := (congrArg Prod.fst begun).symm
  have startedEq := (congrArg Prod.snd begun).symm
  simp only at startedEq
  have memory : (started.ring.slots slot).argval.length =
      (ring.ring.slots ring.ring.tail).argval.length := by
    rw [startedEq, slotEq]
    simp [RecordRing.beginUnlocked, Ringbuf.incSeqnum, Ringbuf.store, Ringbuf.pushBegin]
  have word : (started.ring.slots slot).argtype = (ring.ring.slots ring.ring.tail).argtype := by
    rw [startedEq, slotEq]
    simp [RecordRing.beginUnlocked, Ringbuf.incSeqnum, Ringbuf.store, Ringbuf.pushBegin]
  have sameRoom : started.recTailroom = ring.recTailroom := by rw [startedEq]; rfl
  rw [Record.nargs] at few
  obtain ⟨record, stored, length, -, types⟩ := @Record.setOpenArgsFrom_spec args
    (started.ring.slots slot) 0 (by rw [memory]; omega) (by omega)
  let posted : RecordRing := { started with ring := started.ring.store slot record }
  have slots : posted.finishUnlocked.2.ring.slots = (started.ring.store slot record).slots :=
    pushCommit_slots _
  refine ⟨posted.finishUnlocked.1, posted.finishUnlocked.2, ?_, sameRoom, ?_, ?_⟩
  · simp only [RecordRing.openCoded, begun, stored, Option.bind_eq_bind, Option.bind_some]
    rfl
  · intro other
    rw [slots]
    by_cases claimed : other = ring.ring.tail
    · rw [claimed, ← memory, ← length, slotEq]
      simp only [Ringbuf.store, if_true]
    · simp [startedEq, slotEq, Ringbuf.store, Ringbuf.incSeqnum, RecordRing.beginUnlocked, claimed,
        Ringbuf.pushBegin]
  · intro index bound
    have typed := types index (by rw [Record.nargs] at bound; omega)
    rw [Nat.zero_add, word] at typed
    rw [slots, slotEq]
    simpa only [Ringbuf.store, if_true] using typed

/-- On a ring without argument memory no argument can be stored. -/
theorem openCoded_roomless {ring after : RecordRing} {args : List OpenArg} {timestamp : UInt64}
    {area : Option Area} {sect : UInt32} {outcome : PushOutcome} (roomless : ring.Roomless)
    (posted : ring.openCoded timestamp area sect args = some (outcome, after)) : args = [] := by
  cases args with
  | nil => rfl
  | cons arg args =>
      obtain ⟨record, stored, -⟩ := Option.bind_eq_some_iff.mp posted
      obtain ⟨first, set, -⟩ := Option.bind_eq_some_iff.mp stored
      refine absurd ?_ (Record.setOpenArg_some set)
      simp [Ringbuf.incSeqnum, Ringbuf.store, Ringbuf.pushBegin, roomless ring.ring.tail]

/-- A ring of the constructor after any mix of posts with `push`, open-coded
posts, drops, consumed records and resets. -/
inductive Reused (opts : Options) : RecordRing → Prop where
  | constructed {ring : RecordRing} (made : RecordRing.construct opts = some ring) : Reused opts ring
  | posted {ring after : RecordRing} {timestamp : UInt64} {area : Option Area} {sect : UInt32}
      {args : List Arg} {scratch : Argpack} {outcome : PushOutcome} (reused : Reused opts ring)
      (few : args.length ≤ Record.nargs) (bounded : ∀ arg ∈ args, arg.Bounded)
      (pushed : ring.pushUnlocked timestamp area sect args scratch = some (outcome, after)) :
      Reused opts after
  | opened {ring after : RecordRing} {timestamp : UInt64} {area : Option Area} {sect : UInt32}
      {args : List OpenArg} {outcome : PushOutcome} (reused : Reused opts ring)
      (few : args.length ≤ Record.nargs)
      (pushed : ring.openCoded timestamp area sect args = some (outcome, after)) :
      Reused opts after
  | consumed {ring : RecordRing} (reused : Reused opts ring) (head : UInt32) :
      Reused opts { ring with ring := ring.ring.commitHead head }
  | reset {ring : RecordRing} (reused : Reused opts ring) : Reused opts ring.reset

/-- An open-coded post keeps the memory of every record. -/
theorem openCoded_kept {ring after : RecordRing} {args : List OpenArg} {timestamp : UInt64}
    {area : Option Area} {sect : UInt32} {outcome : PushOutcome} (few : args.length ≤ Record.nargs)
    (inside : 8 * args.length ≤ (ring.ring.slots ring.ring.tail).argval.length)
    (pushed : ring.openCoded timestamp area sect args = some (outcome, after)) :
    after.recTailroom = ring.recTailroom ∧
      ∀ slot, (after.ring.slots slot).argval.length = (ring.ring.slots slot).argval.length := by
  obtain ⟨outcome', after', result, sameRoom, lengths, -⟩ :=
    openCoded_spec few inside timestamp area sect
  rw [pushed, Option.some.injEq, Prod.mk.injEq] at result
  obtain ⟨rfl, rfl⟩ := result
  exact ⟨sameRoom, lengths⟩

theorem Sized.slots_inside {ring : RecordRing} {args : List OpenArg} (sized : ring.Sized)
    (few : args.length ≤ Record.nargs) :
    8 * args.length ≤ (ring.ring.slots ring.ring.tail).argval.length := by
  have room := sized.room
  rw [sized.slots]
  simp only [Record.nargs, Record.argvalSize] at few room
  omega

theorem Reused.sized_or_roomless {opts : Options} {ring : RecordRing} (reused : Reused opts ring) :
    ring.Sized ∨ 2 ^ 32 - 32 ≤ opts.recordTailroom.toNat ∧ ring.Roomless := by
  induction reused with
  | constructed made => exact RecordRing.construct_sized made
  | posted _ few bounded pushed usable =>
      rcases usable with sized | ⟨wrapped, roomless⟩
      · exact .inl (Sized.posted sized few bounded pushed)
      · exact .inr ⟨wrapped, (pushUnlocked_roomless roomless few pushed).2.1⟩
  | @opened ring after timestamp area sect args outcome _ few pushed usable =>
      rcases usable with sized | ⟨wrapped, roomless⟩
      · left
        obtain ⟨sameRoom, lengths⟩ := openCoded_kept few (Sized.slots_inside sized few) pushed
        refine ⟨fun slot => ?_, by rw [sameRoom]; exact sized.room,
          by rw [sameRoom]; exact sized.limit⟩
        rw [lengths, sameRoom, sized.slots]
      · refine .inr ⟨wrapped, fun slot => ?_⟩
        have unset := openCoded_roomless roomless pushed
        obtain ⟨-, lengths⟩ := openCoded_kept few (by rw [unset]; exact Nat.zero_le _) pushed
        rw [← List.length_eq_zero_iff, lengths, roomless slot]
        rfl
  | consumed _ _ usable =>
      exact usable.imp (fun sized => ⟨sized.slots, sized.room, sized.limit⟩) id
  | reset _ usable =>
      exact usable.imp (fun sized => ⟨sized.slots, sized.room, sized.limit⟩) id

/-- The record of an open-coded post has the types that were set exactly when
its slot has room for the arguments and every type bit left in the slot is
also set by the post: the types are merged into the word of the slot. -/
theorem open_coded_types_iff {opts : Options} {ring : RecordRing} {args : List OpenArg}
    (reused : Reused opts ring) (few : args.length ≤ Record.nargs) (timestamp : UInt64)
    (area : Option Area) (sect : UInt32) :
    (∃ outcome after, ring.openCoded timestamp area sect args = some (outcome, after) ∧
        ∀ index < Record.nargs, (after.ring.slots ring.ring.tail).getArgType index =
          .ofNibble (openType args index)) ↔
      8 * args.length ≤ (ring.ring.slots ring.ring.tail).argval.length ∧
        ∀ index < Record.nargs, nibble (ring.ring.slots ring.ring.tail).argtype index |||
          openType args index = openType args index := by
  constructor
  · intro posted
    obtain ⟨outcome, after, pushed, types⟩ := posted
    have inside : 8 * args.length ≤ (ring.ring.slots ring.ring.tail).argval.length := by
      rcases reused.sized_or_roomless with sized | ⟨-, roomless⟩
      · exact Sized.slots_inside sized few
      · rw [openCoded_roomless roomless pushed]
        exact Nat.zero_le _
    refine ⟨inside, fun index bound => ?_⟩
    obtain ⟨outcome', after', result, -, -, merged⟩ :=
      openCoded_spec few inside timestamp area sect
    rw [pushed, Option.some.injEq, Prod.mk.injEq] at result
    obtain ⟨-, rfl⟩ := result
    rw [← merged index bound, ← ArgType.ofNibble_inj]
    exact types index bound
  · intro covered
    obtain ⟨inside, same⟩ := covered
    obtain ⟨outcome, after, pushed, -, -, merged⟩ :=
      openCoded_spec few inside timestamp area sect
    refine ⟨outcome, after, pushed, fun index bound => ?_⟩
    rw [Record.getArgType, merged index bound, same index bound]

/-- On a new ring of the default size the types are those that were set. -/
theorem open_coded_types_iff_fresh : ∃ ring, RecordRing.construct ⟨1024, false, 128⟩ = some ring ∧
    ∃ outcome after,
      ring.openCoded 7 none 1 [⟨ArgType.raw.code, .data 16 4⟩, ⟨ArgType.uint32.code, .val32 9895⟩] =
        some (outcome, after) ∧
      ∀ index < Record.nargs, (after.ring.slots ring.ring.tail).getArgType index = .ofNibble
        (openType [⟨ArgType.raw.code, .data 16 4⟩, ⟨ArgType.uint32.code, .val32 9895⟩] index) := by
  obtain ⟨ring, made, clear⟩ : ∃ ring, RecordRing.construct ⟨1024, false, 128⟩ = some ring ∧
    (ring.ring.slots ring.ring.tail).argtype = 0 := ⟨_, rfl, rfl⟩
  refine ⟨ring, made, (open_coded_types_iff (.constructed made) (by decide) 7 none 1).mpr ?_⟩
  rcases RecordRing.construct_sized made with sized | ⟨wrapped, -⟩
  · refine ⟨Sized.slots_inside sized (by decide), fun index bound => ?_⟩
    rw [clear, nibble_zero]
    exact BitVec.zero_or
  · exact absurd wrapped (by decide)

/-- Where a post leaves the indices of the ring. -/
theorem pushUnlocked_indices {ring after : RecordRing} {args : List Arg} {timestamp : UInt64}
    {area : Option Area} {sect : UInt32} {scratch : Argpack} {outcome : PushOutcome}
    (pushed : ring.pushUnlocked timestamp area sect args scratch = some (outcome, after)) :
    after.ring.head = ring.ring.head ∧ after.ring.capacity = ring.ring.capacity ∧
      after.ring.tail = if ring.ring.head = ring.ring.tail then ring.ring.tail
        else (ring.ring.tail + 1) &&& ring.ring.capacity := by
  obtain ⟨record, -, finished⟩ := Option.bind_eq_some_iff.mp pushed
  have pushedRing : _ = after := congrArg Prod.snd (Option.some.inj finished)
  rw [← pushedRing]
  simp only [RecordRing.finishUnlocked, Ringbuf.pushCommit, Ringbuf.store, Ringbuf.incSeqnum]
  split
  · split <;> exact ⟨rfl, rfl, rfl⟩
  · exact ⟨rfl, rfl, rfl⟩

/-- Two slots: the first keeps a record, so the `int32` posted into the second
one is dropped.  Once the reader caught up, a `uint32` posted open-coded into
that slot reads as an `uint64`. -/
theorem open_coded_types_merged : ∃ ring outcome after, Reused ⟨2, false, 128⟩ ring ∧
    ring.openCoded 9 none 1 [⟨ArgType.uint32.code, .val32 7⟩] = some (outcome, after) ∧
    (after.ring.slots ring.ring.tail).getArgType 0 = .uint64 := by
  let scratch : Argpack := ⟨0, fun _ => 0, fun _ => .none, fun _ => 0⟩
  obtain ⟨ring, made, tail, head, capacity⟩ : ∃ ring, RecordRing.construct ⟨2, false, 128⟩ =
    some ring ∧ ring.ring.tail = 0 ∧ ring.ring.head = 1 ∧ ring.ring.capacity = 1 :=
    ⟨_, rfl, rfl, rfl, rfl⟩
  have usable {ring : RecordRing} (reused : Reused ⟨2, false, 128⟩ ring) : ring.Sized := by
    rcases reused.sized_or_roomless with sized | ⟨wrapped, -⟩
    · exact sized
    · exact absurd wrapped (by decide)
  have start := Reused.constructed made
  obtain ⟨_, first, posted, -⟩ := pushUnlocked_spec (usable start) (Nat.zero_le _)
    (List.forall_mem_nil _) 7 none 1 scratch
  have kept := start.posted (Nat.zero_le _) (List.forall_mem_nil _) posted
  obtain ⟨headFirst, capacityFirst, tailFirst⟩ := pushUnlocked_indices posted
  rw [head, tail, capacity] at tailFirst
  obtain ⟨_, second, dropped, -, -, holds⟩ := @pushUnlocked_spec first [.value .int32 1]
    (usable kept) (by decide) (by simp [Arg.Bounded, Arg.data]) 8 none 1 scratch
  have stale := kept.posted (by decide) (by simp [Arg.Bounded, Arg.data]) dropped
  obtain ⟨-, -, tailSecond⟩ := pushUnlocked_indices dropped
  have full : first.ring.head = first.ring.tail := by
    rw [headFirst, head, tailFirst]
    decide
  rw [if_pos full] at tailSecond
  have left : nibble (second.ring.slots second.ring.tail).argtype 0 = ArgType.int32.code := by
    rw [tailSecond, ← ArgType.ofNibble_inj]
    exact holds.types 0 (by decide)
  have caught := stale.consumed 0
  obtain ⟨outcome, after, opened, -, -, merged⟩ := @openCoded_spec
    { second with ring := second.ring.commitHead 0 } [⟨ArgType.uint32.code, .val32 7⟩] (by decide)
    (Sized.slots_inside (usable caught) (by decide)) 9 none 1
  refine ⟨_, outcome, after, caught, opened, ?_⟩
  rw [Record.getArgType, merged 0 (by decide)]
  change ArgType.ofNibble (nibble (second.ring.slots second.ring.tail).argtype 0 ||| _) = _
  rw [left]
  rfl

end Post

end Hogl
