import Hogl.Record.Packing

namespace Hogl

open Hogl.Data

/-! # Storing an argument list in a record -/

namespace Record

variable {before after record : Record} {index : Nat} {tailroom offset : UInt32}

/-- The argument at `index` reads back as it was posted; a data argument was
given `room` bytes at `offset`. -/
def Stored (record : Record) (index : Nat) (arg : Arg) (offset room : Nat) : Prop :=
  match arg with
  | .none => True
  | .value type val =>
      if type.argType.is32bit then record.getArgVal32 index = val.toUInt32
      else record.getArgVal64 index = val
  | .cstr _ | .raw _ | .xdump _ _ => record.HoldsData index arg offset room

/-- Storage of an argument depends on its slot and on its image only. -/
theorem Stored.frame {arg : Arg} {place room : Nat} (stored : before.Stored index arg place room)
    (slot : ∀ start size, 8 * index ≤ start → start + size ≤ 8 * index + 8 →
      readAt after.argval start size = readAt before.argval start size)
    (image : ∀ start size, place ≤ start → start + size ≤ place + (arg.image room).length →
      readAt after.argval start size = readAt before.argval start size) :
    after.Stored index arg place room := by
  have low := slot (8 * index) 4 (by omega) (by omega)
  have high := slot (8 * index + 4) 4 (by omega) (by omega)
  have word := slot (8 * index) 8 (by omega) (by omega)
  cases arg with
  | none => trivial
  | value type val =>
      by_cases narrow : type.argType.is32bit = true
      · simp only [Stored, narrow, if_true, getArgVal32, low] at stored ⊢
        exact stored
      · simp only [Stored, narrow, Bool.false_eq_true, if_false, getArgVal64, word] at stored ⊢
        exact stored
  | cstr | raw | xdump =>
      exact {
        len := by rw [dataLen, high]; exact stored.len
        place := fun present => by rw [dataOffset, low]; exact stored.place present
        image := by rw [image place _ (Nat.le_refl _) (Nat.le_refl _)]; exact stored.image }

/-- The arguments from `index` on are stored one behind the other. -/
def StoredFrom (record : Record) (tailroom : Nat) : Nat → Nat → List Arg → Prop
  | _, _, [] => True
  | index, offset, arg :: args =>
      record.Stored index arg offset (tailroom - offset) ∧
        record.StoredFrom tailroom (index + 1) (arg.advance tailroom offset) args

/-- One argument was stored: nothing but its slot and its image changed. -/
def ArgSpec (record : Record) (index : Nat) (arg : Arg) (tailroom offset : UInt32)
    (result : Option (Record × UInt32)) : Prop :=
  ∃ after next, result = some (after, next) ∧
    next.toNat = arg.advance tailroom.toNat offset.toNat ∧
    record.SameOutside after index offset.toNat
      (arg.image (tailroom.toNat - offset.toNat)).length ∧
    after.Stored index arg offset.toNat (tailroom.toNat - offset.toNat)

/-- A copy that consumed `used` bytes advances the running offset by them. -/
theorem CopySpec.argSpec {arg : Arg} {copied : Option (Record × UInt32)}
    (below : offset.toNat ≤ tailroom.toNat)
    (spec : record.CopySpec index arg offset (tailroom.toNat - offset.toNat) copied)
    (stored : ∀ after : Record, after.HoldsData index arg offset.toNat
      (tailroom.toNat - offset.toNat) →
      after.Stored index arg offset.toNat (tailroom.toNat - offset.toNat)) :
    record.ArgSpec index arg tailroom offset
      (copied.bind fun result => some (result.1, offset + result.2)) := by
  obtain ⟨after, used, rfl, size, same, holds⟩ := spec
  have bound := arg.image_length_le (tailroom.toNat - offset.toNat)
  have small := tailroom.toNat_lt
  refine ⟨after, offset + used, rfl, ?_, same, stored after holds⟩
  rw [UInt32.toNat_add, size, Nat.mod_eq_of_lt (by omega), Arg.advance]

theorem setArgVal64_spec (record : Record) (index : Nat) (val : UInt64)
    (inside : 8 * index + 8 ≤ record.argval.length) :
    ∃ after, record.setArgVal64 index val = some after ∧ record.SameOutside after index 0 0 ∧
      after.getArgVal64 index = val ∧ after.getArgVal32 index = val.toUInt32 := by
  obtain ⟨argval, written, stored⟩ := write_exists record (8 * index) (leBytes 8 val.toNat)
    (by rw [leBytes_length]; omega)
  have loaded := readAt_writeAt_same written
  rw [leBytes_length] at loaded
  refine ⟨{ record with argval }, stored, ⟨rfl, writeAt_length written, ?_⟩, ?_, ?_⟩
  · intro start size apart _
    exact readAt_writeAt_frame written (by rw [leBytes_length]; omega)
  · change UInt64.ofNat (leValue (readAt argval (8 * index) 8)) = val
    rw [loaded, leValue_leBytes_of_lt val.toNat_lt, UInt64.ofNat_toNat]
  · have low : readAt argval (8 * index) 4 = leBytes 4 val.toNat := by
      rw [show 8 = 4 + 4 from rfl, readAt_add, leBytes_add] at loaded
      apply (List.append_inj loaded ?_).1
      have length := congrArg List.length loaded
      simp only [List.length_append, readAt, List.length_take, List.length_drop,
        leBytes_length] at length ⊢
      omega
    change UInt32.ofNat (leValue (readAt argval (8 * index) 4)) = val.toUInt32
    rw [low, leValue_leBytes]
    apply UInt32.toNat_inj.mp
    rw [UInt32.toNat_ofNat', UInt64.toNat_toUInt32]
    exact Nat.mod_mod _ _

theorem setArgVal32_spec (record : Record) (index : Nat) (val : UInt32)
    (inside : 8 * index + 8 ≤ record.argval.length) :
    ∃ after, record.setArgVal32 index val = some after ∧ record.SameOutside after index 0 0 ∧
      after.getArgVal32 index = val := by
  obtain ⟨argval, written, stored⟩ := write_exists record (8 * index) (leBytes 4 val.toNat)
    (by rw [leBytes_length]; omega)
  have loaded := readAt_writeAt_same written
  rw [leBytes_length] at loaded
  refine ⟨{ record with argval }, stored, ⟨rfl, writeAt_length written, ?_⟩, ?_⟩
  · intro start size apart _
    exact readAt_writeAt_frame written (by rw [leBytes_length]; omega)
  · change UInt32.ofNat (leValue (readAt argval (8 * index) 4)) = val
    rw [loaded, leValue_leBytes_of_lt val.toNat_lt, UInt32.ofNat_toNat]

/-! ## The out-of-line encoder -/

theorem setPackedArg_spec (record : Record) {pack : Argpack} {arg : Arg} (bounded : arg.Bounded)
    (type : pack.getArgType index = arg.type) (carries : pack.Carries index arg)
    (below : offset.toNat ≤ tailroom.toNat) (memory : record.argval.length = tailroom.toNat)
    (clear : 8 * index + 8 ≤ offset.toNat) :
    record.ArgSpec index arg tailroom offset (record.setPackedArg pack index tailroom offset) := by
  have left : offset.toNat + (tailroom.toNat - offset.toNat) = tailroom.toNat := by omega
  cases arg with
  | none =>
      obtain ⟨after, stored, same, -, -⟩ :=
        record.setArgVal64_spec index (pack.argval index) (by omega)
      refine ⟨after, offset, ?_, ?_, ⟨same.header, same.length, ?_⟩, trivial⟩
      · simp only [setPackedArg, type, Arg.type, stored, Option.bind_eq_bind, Option.bind_some]
        rfl
      · simp [Arg.advance, Arg.image, Arg.payload]
      · exact fun start size apart _ => same.frame start size apart (by omega)
  | value kind val =>
      obtain ⟨after, stored, same, wide, narrow⟩ :=
        record.setArgVal64_spec index (pack.argval index) (by omega)
      refine ⟨after, offset, ?_, ?_, ⟨same.header, same.length, ?_⟩, ?_⟩
      · cases kind <;>
          simp only [setPackedArg, type, Arg.type, ValueType.argType, stored, Option.bind_eq_bind,
            Option.bind_some] <;> rfl
      · simp [Arg.advance, Arg.image, Arg.payload]
      · exact fun start size apart _ => same.frame start size apart (by omega)
      · by_cases short : kind.argType.is32bit = true
        · simp only [Argpack.Carries, short, if_true] at carries
          simp only [Stored, short, if_true, narrow]
          apply UInt32.toNat_inj.mp
          rw [UInt64.toNat_toUInt32, UInt64.toNat_toUInt32]
          exact carries
        · simp only [Argpack.Carries, short, Bool.false_eq_true, if_false] at carries
          simp only [Stored, short, Bool.false_eq_true, if_false, wide, carries]
  | cstr str =>
      have spec := copyCstr_spec record str (Arg.len_toNat bounded) left memory clear
      have result := spec.argSpec below (fun _ holds => holds)
      simp only [setPackedArg, type, Arg.type, carries.1, carries.2, Arg.data]
      exact result
  | raw data =>
      have spec := copyData_spec record data (Arg.len_toNat bounded) left memory clear
      have result := spec.argSpec below (fun _ holds => holds)
      simp only [setPackedArg, type, Arg.type, carries.1, carries.2, Arg.data]
      exact result
  | xdump format data =>
      have spec := copyXdump_spec record format data (Arg.len_toNat bounded) bounded left memory
        clear
      have result := spec.argSpec below (fun _ holds => holds)
      simp only [setPackedArg, type, Arg.type, carries.1]
      exact result

/-- The loop over a pack stores each argument behind the previous one and
leaves the earlier slots and images alone. -/
theorem setPackedArgsFrom_spec {pack : Argpack} {args : List Arg} {total : Nat}
    (bounded : ∀ arg ∈ args, arg.Bounded)
    (carries : ∀ position arg, args[position]? = some arg →
      pack.getArgType (index + position) = arg.type ∧ pack.Carries (index + position) arg)
    (count : index + args.length = total) (below : offset.toNat ≤ tailroom.toNat)
    (memory : record.argval.length = tailroom.toNat) (clear : 8 * total ≤ offset.toNat) :
    ∃ after next, setPackedArgsFrom tailroom pack args.length index offset record =
        some (after, next) ∧
      after = { record with argval := after.argval } ∧
      after.argval.length = record.argval.length ∧
      after.StoredFrom tailroom.toNat index offset.toNat args ∧
      (∀ start size, (start + size ≤ 8 * index ∨ 8 * total ≤ start) →
        start + size ≤ offset.toNat →
        readAt after.argval start size = readAt record.argval start size) := by
  induction args generalizing index offset record with
  | nil => exact ⟨record, offset, rfl, rfl, rfl, trivial, fun _ _ _ _ => rfl⟩
  | cons arg args ih =>
      simp only [List.length_cons] at count
      obtain ⟨type, carried⟩ := carries 0 arg rfl
      rw [Nat.add_zero] at type carried
      obtain ⟨middle, next, first, nextEq, same, stored⟩ := setPackedArg_spec record
        (bounded arg (by simp)) type carried below memory (by omega)
      obtain ⟨lower, upper⟩ := arg.advance_le below
      obtain ⟨after, final, rest, header, length, storedRest, frame⟩ := @ih middle (index + 1) next
        (fun other member => bounded other (by simp [member]))
        (fun position other found => by
          rw [show index + 1 + position = index + (position + 1) by omega]
          exact carries (position + 1) other (by simpa using found))
        (by omega) (by omega) (by rw [same.length, memory]) (by omega)
      refine ⟨after, final, ?_, ?_, length.trans same.length, ⟨?_, ?_⟩, ?_⟩
      · simp only [List.length_cons, setPackedArgsFrom, first, Option.bind_eq_bind,
          Option.bind_some,
          rest]
      · rw [header, same.header]
      · apply stored.frame
        · intro start size from_slot to_slot
          exact frame start size (by omega) (by omega)
        · intro start size from_image to_image
          exact frame start size (by omega) (by rw [nextEq, Arg.advance]; omega)
      · rw [← nextEq]
        exact storedRest
      · intro start size apart earlier
        rw [frame start size (by omega) (by omega)]
        exact same.frame start size (by omega) (by omega)

/-! ## The inline encoder -/

theorem setArg_value_spec (record : Record) (index : Nat) (tailroom offset : UInt32)
    (type : ValueType) (val : UInt64)
    (inside : 8 * index + 8 ≤ record.argval.length) :
    ∃ after, record.setArg index (.value type val) tailroom offset = some (after, offset) ∧
      (record.setArgType index type.argType).SameOutside after index 0 0 ∧
      ∀ place room, after.Stored index (.value type val) place room := by
  by_cases narrow : type.argType.is32bit = true
  · obtain ⟨after, stored, same, loaded⟩ :=
      (record.setArgType index type.argType).setArgVal32_spec index val.toUInt32 inside
    refine ⟨after, ?_, same, fun _ _ => ?_⟩
    · simp only [setArg, narrow, if_true, stored, Option.bind_eq_bind, Option.bind_some]
      rfl
    · simpa only [Stored, narrow, if_true] using loaded
  · obtain ⟨after, stored, same, loaded, -⟩ :=
      (record.setArgType index type.argType).setArgVal64_spec index val inside
    refine ⟨after, ?_, same, fun _ _ => ?_⟩
    · simp only [setArg, narrow, Bool.false_eq_true, if_false, stored, Option.bind_eq_bind,
        Option.bind_some]
      rfl
    · simpa only [Stored, narrow, Bool.false_eq_true, if_false] using loaded

/-- Without data arguments the inline encoder touches the value slots only. -/
theorem setArgsFrom_spec {args : List Arg} {place : Nat}
    (simple : ∀ arg ∈ args, arg = .none ∨ ∃ type val, arg = .value type val)
    (inside : 8 * (index + args.length) ≤ record.argval.length) :
    ∃ after, setArgsFrom tailroom args index offset record = some (after, offset) ∧
      after = { record with
        argtype := Arg.typeWord args index record.argtype, argval := after.argval } ∧
      after.argval.length = record.argval.length ∧
      after.StoredFrom tailroom.toNat index place args ∧
      (∀ start size, start + size ≤ 8 * index →
        readAt after.argval start size = readAt record.argval start size) := by
  induction args generalizing index record with
  | nil => exact ⟨record, rfl, rfl, rfl, trivial, fun _ _ _ => rfl⟩
  | cons arg args ih =>
      simp only [List.length_cons] at inside
      have simpleRest := fun other member => simple other (List.mem_cons_of_mem arg member)
      rcases simple arg (by simp) with rfl | ⟨type, val, rfl⟩
      · obtain ⟨after, rest, header, length, storedRest, frame⟩ := @ih record (index + 1) simpleRest
          (by omega)
        refine ⟨after, ?_, ?_, length, ⟨trivial, ?_⟩, ?_⟩
        · simp only [setArgsFrom, setArg, Option.bind_eq_bind, Option.bind_some, rest]
        · rw [Arg.typeWord]
          change after = { record with
            argtype := Arg.typeWord args (index + 1) (orNibble record.argtype index 0)
            argval := after.argval }
          rw [Argpack.orNibble_zero]
          exact header
        · simpa [Arg.advance, Arg.image, Arg.payload] using storedRest
        · exact fun start size earlier => frame start size (by omega)
      · obtain ⟨middle, first, same, stored⟩ := setArg_value_spec record index tailroom offset type
          val (by omega)
        obtain ⟨after, rest, header, length, storedRest, frame⟩ := @ih middle (index + 1) simpleRest
          (by rw [same.length]; change _ ≤ record.argval.length; omega)
        refine ⟨after, ?_, ?_, length.trans same.length, ⟨?_, ?_⟩, ?_⟩
        · simp only [setArgsFrom, first, Option.bind_eq_bind, Option.bind_some, rest]
        · rw [header, same.header]
          rfl
        · apply (stored place _).frame
          · intro start size _ to_slot
            exact frame start size (by omega)
          · intro start size _ to_image
            simp only [Arg.image, Arg.payload, List.length_nil] at to_image
            have empty : size = 0 := by omega
            rw [empty, readAt_zero, readAt_zero]
        · simpa [Arg.advance, Arg.image, Arg.payload] using storedRest
        · intro start size earlier
          rw [frame start size (by omega)]
          exact same.frame start size (by omega) (by omega)

/-! ## Both encoders -/

/-- Trailing `NONE` arguments need no storage. -/
theorem StoredFrom.of_take {args : List Arg} {room place count : Nat}
    (stored : record.StoredFrom room index place (args.take count))
    (trailing : ∀ position, count ≤ position → args.getD position .none = .none) :
    record.StoredFrom room index place args := by
  induction args generalizing index place count with
  | nil => trivial
  | cons arg args ih =>
      have shift : ∀ position, count - 1 ≤ position → args.getD position .none = .none :=
        fun position above => by simpa using trailing (position + 1) (by omega)
      cases count with
      | zero =>
          have unset : arg = .none := by simpa using trailing 0 (Nat.le_refl 0)
          subst unset
          exact ⟨trivial, @ih _ _ 0 (by simp [StoredFrom]) shift⟩
      | succ count => exact ⟨stored.1, ih stored.2 shift⟩

/-- Whichever encoder is taken, it keeps every byte it writes inside the
record and each argument reads back from its position. -/
theorem encodeArgs_spec {args : List Arg} (scratch : Argpack) (few : args.length ≤ 16)
    (bounded : ∀ arg ∈ args, arg.Bounded) (memory : record.argval.length = tailroom.toNat)
    (slots : 128 ≤ tailroom.toNat) :
    ∃ after, record.encodeArgs tailroom args scratch = some after ∧
      after = { record with argtype := after.argtype, argval := after.argval } ∧
      after.argval.length = tailroom.toNat ∧
      (∀ position < 16, after.getArgType position = (args.getD position .none).type) ∧
      after.StoredFrom tailroom.toNat 0 (8 * Arg.slotsUsed args) args := by
  have used := Arg.slotsUsed_le args
  cases populated : scratch.populate args with
  | mk pack complex =>
      have packEq : pack = (scratch.populate args).1 := by rw [populated]
      have types : ∀ position < 16, ArgType.ofNibble (nibble pack.argtype position) =
          (args.getD position .none).type := by
        intro position inside
        rw [packEq, scratch.populate_types inside, Arg.ofNibble_type_code]
      cases complex with
      | zero =>
          have simple := Argpack.simple_of_populateFrom (congrArg Prod.snd populated)
          obtain ⟨after, rest, header, length, stored, -⟩ := @setArgsFrom_spec
            { record with argtype := 0 } 0 tailroom (UInt32.ofNat (args.countP (· ≠ .none) * 8)) _
            (8 * Arg.slotsUsed args) simple (by change _ ≤ record.argval.length; omega)
          have word : after.argtype = pack.argtype := by
            rw [packEq, Argpack.populate, Argpack.populateFrom_argtype, header]
          refine ⟨after, ?_, ?_, length.trans memory, ?_, stored⟩
          · simp only [encodeArgs, populated, setArgs, rest, Option.bind_eq_bind, Option.bind_some]
            rfl
          · rw [header]
          · intro position inside
            rw [getArgType, word]
            exact types position inside
      | succ complex =>
          have slotCount : pack.nargs = Arg.slotsUsed args := by
            rw [packEq, scratch.populate_nargs few]
          have taken : (args.take (Arg.slotsUsed args)).length = Arg.slotsUsed args := by
            rw [List.length_take]
            omega
          have start : (UInt32.ofNat (Arg.slotsUsed args * 8)).toNat = 8 * Arg.slotsUsed args := by
            rw [UInt32.toNat_ofNat']
            omega
          obtain ⟨after, next, rest, header, length, stored, -⟩ := @setPackedArgsFrom_spec
            { record with argtype := pack.argtype } 0 tailroom
            (UInt32.ofNat (Arg.slotsUsed args * 8)) pack (args.take (Arg.slotsUsed args))
            (Arg.slotsUsed args) (fun arg member => bounded arg (List.mem_of_mem_take member))
            (fun position arg found => by
              have inArgs : args[position]? = some arg := by
                rw [List.getElem?_take] at found
                split at found
                · exact found
                · simp at found
              have inside : position < 16 :=
                Nat.lt_of_lt_of_le (List.getElem?_eq_some_iff.mp inArgs).1 few
              rw [Nat.zero_add, Argpack.getArgType, types position inside,
                List.getD_eq_getElem?_getD, inArgs]
              refine ⟨rfl, ?_⟩
              have carried := Argpack.populateFrom_carries 0 { scratch with argtype := 0 } inArgs
              rwa [Nat.zero_add, ← Argpack.populate, ← packEq] at carried) (by omega) (by omega)
                memory (by omega)
          rw [taken] at rest
          refine ⟨after, ?_, ?_, length.trans memory, ?_, ?_⟩
          · simp only [encodeArgs, populated, setPackedArgs, slotCount, rest, Option.bind_eq_bind,
              Option.bind_some]
            rfl
          · rw [header]
          · intro position inside
            rw [getArgType, header]
            exact types position inside
          · rw [start] at stored
            exact stored.of_take fun position above => Arg.getD_of_slotsUsed_le above

end Record

end Hogl
