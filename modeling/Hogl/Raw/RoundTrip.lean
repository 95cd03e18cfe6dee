import Hogl.Post.Posting
import Hogl.Raw.Bounds
import Mathlib.Data.List.TakeWhile

namespace Hogl.Raw

open Hogl.Data

/-! # Packing and parsing back

The packer and the parser walk the arguments in the same order.  Each argument
is read from the bytes the packer wrote for it, and the later reads leave the
bytes it was stored in alone. -/

/-- The longest string the format can carry. -/
def maxString : Nat := 65535

/-- A name the parser accepts. -/
def PrintableName (name : List UInt8) : Prop :=
  name.all isPrint = true ∧ 2 ≤ name.length ∧ name.length ≤ 128

/-- The bytes the decoded argument takes behind the value slots. -/
def argNeed (strings : UInt64 → List UInt8) (record : Record) (index : Nat) : Nat :=
  match record.getArgType index with
  | .cstr => min (record.dataLen index) maxString + 1
  | .gstr => min (strings (record.getArgVal64 index)).length maxString + 1
  | .xdump | .raw => record.dataLen index
  | _ => 0

def needFrom (strings : UInt64 → List UInt8) (record : Record) : Nat → Nat → Nat
  | 0, _ => 0
  | count + 1, index =>
      if record.getArgType index = .none then 0
      else argNeed strings record index + needFrom strings record count (index + 1)

/-- A record that may be packed: as `set_args` leaves it, with names the
parser accepts, and small enough for its record buffer. -/
structure Packable (strings : UInt64 → List UInt8) (maxRecordSize : Nat) (data : FormatData) :
    Prop where
  stored : ∃ args tailroom, args.length ≤ Record.nargs ∧ data.record.Holds args tailroom
  pointers : ∀ index < Record.nargs, data.record.getArgType index = .gstr →
    data.record.getArgVal64 index ≠ 0
  ringName : PrintableName data.ringName
  areaName : PrintableName data.areaName
  sectName : PrintableName data.sectName
  fits : Record.byteSize + needFrom strings data.record Record.nargs 0 ≤ maxRecordSize

/-- What becomes of one argument. -/
def SameArg (strings : UInt64 → List UInt8) (original decoded : Record) (index : Nat) : Prop :=
  decoded.getArgType index = readType (original.getArgType index) ∧
    match original.getArgType index with
    | .none => True
    | .cstr => decoded.getArgData index = (original.getArgData index).take maxString
    | .gstr => decoded.getArgData index =
        (strings (original.getArgVal64 index)).take maxString
    | .xdump | .raw => decoded.getArgData index = original.getArgData index
    | .int32 | .uint32 => decoded.getArgVal32 index = original.getArgVal32 index
    | _ => decoded.getArgVal64 index = original.getArgVal64 index

/-- The decoded record stands for the packed one. -/
structure SameRecord (strings : UInt64 → List UInt8) (original decoded : FormatData) : Prop where
  timestamp : decoded.record.timestamp = original.record.timestamp
  seqnum : decoded.record.seqnum = original.record.seqnum
  ringName : decoded.ringName = original.ringName
  areaName : decoded.areaName = original.areaName
  sectName : decoded.sectName = original.sectName
  args : ∀ index < Record.nargs, (∀ earlier ≤ index, original.record.getArgType earlier ≠ .none) →
    SameArg strings original.record decoded.record index

/-! ## Fields the packer wrote -/

section Fields

variable {width n : Nat} {bytes rest : List UInt8}

theorem announced_packed (bound : n < 256 ^ width) :
    announced width (leBytes width n ++ bytes ++ rest) = n := by
  rw [announced, List.append_assoc, List.take_left' (leBytes_length _ _),
    leValue_leBytes_of_lt bound]

theorem body_packed : body width (leBytes width n ++ bytes ++ rest) = bytes ++ rest := by
  rw [body, List.append_assoc, List.drop_left' (leBytes_length _ _)]

theorem complete_packed (bound : n < 256 ^ width) (size : bytes.length = n) :
    Complete width (leBytes width n ++ bytes ++ rest) := by
  refine ⟨by simp only [List.length_append, leBytes_length]; omega, ?_⟩
  rw [announced_packed bound, body_packed, List.length_append]
  omega

theorem available_packed (bound : n < 256 ^ width) (size : bytes.length = n) :
    available width (leBytes width n ++ bytes ++ rest) = bytes := by
  rw [available, if_pos (complete_packed bound size).1, announced_packed bound, body_packed,
    List.take_left' size]

theorem behind_packed (bound : n < 256 ^ width) (size : bytes.length = n) :
    behind width (leBytes width n ++ bytes ++ rest) = rest := by
  rw [behind, announced_packed bound, body_packed, List.drop_left' size]

theorem text_packed (rest : List UInt8) (bound : n < 256 ^ 2) (size : bytes.length = n) :
    Field.text.Whole (leBytes 2 n ++ bytes ++ rest) ∧
      Field.text.rest (leBytes 2 n ++ bytes ++ rest) = rest ∧
      (Field.text.stored (leBytes 2 n ++ bytes ++ rest)).length = n + 1 := by
  refine ⟨complete_packed bound size, behind_packed bound size, ?_⟩
  rw [Field.stored, terminated_length (complete_packed bound size), announced_packed bound]

theorem block_packed (width : Nat) (rest : List UInt8) (bound : n < 256 ^ width)
    (size : bytes.length = n) :
    (Field.block width).Whole (leBytes width n ++ bytes ++ rest) ∧
      (Field.block width).rest (leBytes width n ++ bytes ++ rest) = rest ∧
      ((Field.block width).stored (leBytes width n ++ bytes ++ rest)).length = n := by
  refine ⟨complete_packed bound size, behind_packed bound size, ?_⟩
  rw [Field.stored, available_packed bound size, size]

theorem word_packed (rest : List UInt8) (width value : Nat) :
    (Field.word width).Whole (leBytes width value ++ rest) ∧
      (Field.word width).rest (leBytes width value ++ rest) = rest ∧
      ((Field.word width).stored (leBytes width value ++ rest)).length = 0 := by
  refine ⟨?_, List.drop_left' (leBytes_length _ _), rfl⟩
  rw [Field.Whole, List.length_append, leBytes_length]
  omega

/-- A decoded string or block reads back the packed bytes. -/
theorem getArgData_decoded (width : Nat) {record : Record} {index offset : Nat}
    (bound : n < 256 ^ width)
    (size : bytes.length = n)
    (decoded : record.dataOffset index = offset ∧
      record.dataLen index = announced width (leBytes width n ++ bytes ++ rest) ∧
      readAt record.argval offset (announced width (leBytes width n ++ bytes ++ rest)) =
        available width (leBytes width n ++ bytes ++ rest)) :
    record.getArgData index = bytes := by
  obtain ⟨place, len, data⟩ := decoded
  rw [announced_packed bound] at len data
  rw [available_packed bound size] at data
  rw [Record.getArgData, place, len, data]

end Fields

section Arguments

variable {strings : UInt64 → List UInt8} {original : Record} {index : Nat}

/-- The slot of a data argument describes bytes of the record. -/
def Readable (record : Record) (index : Nat) : Prop :=
  (record.getArgType index).isSimple = false →
    (record.getArgData index).length = record.dataLen index

theorem readable_of_holds {record : Record} {args : List Arg} {tailroom : Nat}
    (holds : record.Holds args tailroom) (inside : index < Record.nargs) :
    Readable record index := by
  intro complex
  rw [holds.types index inside, List.getD_eq_getElem?_getD] at complex
  cases found : args[index]? with
  | none => rw [found] at complex; cases complex
  | some arg =>
      rw [found] at complex
      obtain ⟨data, len, -⟩ := holds.data index arg found complex
      rw [data, len]

theorem dataLen_lt (record : Record) (index : Nat) : record.dataLen index < 2 ^ 32 := by
  refine Nat.lt_of_lt_of_le (leValue_lt _) ?_
  refine Nat.pow_le_pow_right (by decide) ?_ |>.trans (show 256 ^ 4 ≤ 2 ^ 32 by decide)
  rw [readAt, List.length_take]
  omega

/-- The packed bytes of an argument are a whole field of its kind, and what is
decoded from them is the argument. -/
theorem addArg_spec (strings : UInt64 → List UInt8) (set : original.getArgType index ≠ .none)
    (readable : Readable original index)
    (rest : List UInt8) :
    (Field.ofType .v1_1 (original.getArgType index)).Whole (addArg strings original index ++ rest) ∧
    (Field.ofType .v1_1 (original.getArgType index)).rest (addArg strings original index ++ rest) =
      rest ∧
    ((Field.ofType .v1_1 (original.getArgType index)).stored
      (addArg strings original index ++ rest)).length = argNeed strings original index ∧
    ∀ record offset, record.getArgType index = readType (original.getArgType index) →
      Decoded record (Field.ofType .v1_1 (original.getArgType index))
        (addArg strings original index ++ rest) index offset →
      SameArg strings original record index := by
  have lenBound := dataLen_lt original index
  cases type : original.getArgType index with
  | none => exact absurd type set
  | cstr =>
      have size : ((original.getArgData index).take (min (original.dataLen index) 65535)).length =
          min (original.dataLen index) 65535 := by
        rw [List.length_take, readable (by rw [type]; rfl)]
        omega
      have cut : (original.getArgData index).take (min (original.dataLen index) 65535) =
          (original.getArgData index).take maxString := by
        rw [List.take_eq_take_iff, readable (by rw [type]; rfl), maxString]
        omega
      obtain ⟨whole, behind, stored⟩ := text_packed rest (by omega) size
      simp only [addArg, type, addBlob]
      refine ⟨whole, behind, stored.trans (by simp only [argNeed, type, maxString]), ?_⟩
      intro record offset kind decoded
      refine ⟨kind.trans (by rw [type]), ?_⟩
      simp only [type]
      exact (getArgData_decoded 2 (by omega) size decoded).trans cut
  | gstr =>
      have size : ((strings (original.getArgVal64 index)).take
          (min (strings (original.getArgVal64 index)).length 65535)).length =
          min (strings (original.getArgVal64 index)).length 65535 := by
        rw [List.length_take]
        omega
      have cut : (strings (original.getArgVal64 index)).take
          (min (strings (original.getArgVal64 index)).length 65535) =
          (strings (original.getArgVal64 index)).take maxString := by
        rw [List.take_eq_take_iff, maxString]
        omega
      obtain ⟨whole, behind, stored⟩ := text_packed rest (by omega) size
      simp only [addArg, type, addStr, addBlob]
      refine ⟨whole, behind, stored.trans (by simp only [argNeed, type, maxString]), ?_⟩
      intro record offset kind decoded
      refine ⟨kind.trans (by rw [type]), ?_⟩
      simp only [type]
      exact (getArgData_decoded 2 (by omega) size decoded).trans cut
  | xdump | raw =>
      have clipped : min (original.dataLen index) (2 ^ (8 * 4) - 1) = original.dataLen index := by
        omega
      have whole_data : (original.getArgData index).take (original.dataLen index) =
          original.getArgData index :=
        List.take_of_length_le (Nat.le_of_eq (readable (by rw [type]; rfl)))
      obtain ⟨whole, behind, stored⟩ := block_packed 4 rest (by omega)
        (readable (by rw [type]; rfl))
      simp only [addArg, type, addBlob, clipped, whole_data]
      refine ⟨whole, behind, stored.trans (by simp only [argNeed, type]), ?_⟩
      intro record offset kind decoded
      refine ⟨kind.trans (by rw [type]), ?_⟩
      simp only [type]
      exact getArgData_decoded 4 (by omega) (readable (by rw [type]; rfl)) decoded
  | int32 | uint32 =>
      obtain ⟨whole, behind, stored⟩ := word_packed rest 4 (original.getArgVal32 index).toNat
      simp only [addArg, type]
      refine ⟨whole, behind, stored.trans (by simp only [argNeed, type]), ?_⟩
      intro record offset kind decoded
      refine ⟨kind.trans (by rw [type]), ?_⟩
      simp only [type]
      have value := decoded
      simp only [Decoded, Field.ofType, if_true] at value
      rw [value, announced, List.take_left' (leBytes_length _ _),
        leValue_leBytes_of_lt (original.getArgVal32 index).toNat_lt, UInt32.ofNat_toNat]
  | uint64 | int64 | pointer | double | unassigned =>
      obtain ⟨whole, behind, stored⟩ := word_packed rest 8 (original.getArgVal64 index).toNat
      simp only [addArg, type]
      refine ⟨whole, behind, stored.trans (by simp only [argNeed, type]), ?_⟩
      intro record offset kind decoded
      refine ⟨kind.trans (by rw [type]), ?_⟩
      simp only [type]
      have value := decoded
      simp only [Decoded, Field.ofType] at value
      rw [if_neg (by decide)] at value
      rw [value, announced, List.take_left' (leBytes_length _ _),
        leValue_leBytes_of_lt (original.getArgVal64 index).toNat_lt, UInt64.ofNat_toNat]

/-- A decoded argument depends on its slot and on its stored bytes only. -/
theorem Decoded.frame {before after : Record} {field : Field} {input : List UInt8} {offset : Nat}
    (decoded : Decoded before field input index offset) (whole : field.Whole input)
    (slot : ∀ start size, 8 * index ≤ start → start + size ≤ 8 * index + 8 →
      readAt after.argval start size = readAt before.argval start size)
    (data : ∀ start size, offset ≤ start →
      start + size ≤ offset + (field.stored input).length →
      readAt after.argval start size = readAt before.argval start size) :
    Decoded after field input index offset := by
  have low := slot (8 * index) 4 (by omega) (by omega)
  have high := slot (8 * index + 4) 4 (by omega) (by omega)
  have word := slot (8 * index) 8 (by omega) (by omega)
  cases field with
  | text =>
      obtain ⟨place, len, bytes⟩ := decoded
      have size : (Field.text.stored input).length = announced 2 input + 1 := terminated_length
        whole
      refine ⟨by rw [Record.dataOffset, low]; exact place,
        by rw [Record.dataLen, high]; exact len, ?_⟩
      rw [data offset _ (Nat.le_refl _) (by omega)]
      exact bytes
  | block width =>
      obtain ⟨place, len, bytes⟩ := decoded
      have size : ((Field.block width).stored input).length = announced width input :=
        available_length whole
      refine ⟨by rw [Record.dataOffset, low]; exact place,
        by rw [Record.dataLen, high]; exact len, ?_⟩
      rw [data offset _ (Nat.le_refl _) (by omega)]
      exact bytes
  | word width =>
      simp only [Decoded, Record.getArgVal32, Record.getArgVal64, low, word] at decoded ⊢
      exact decoded

variable {parser : Parser} {offset count : Nat} {rest : List UInt8}

/-- The argument loop reads back what the argument loop of the packer wrote. -/
theorem readArgsFrom_packed (ok : parser.failed = false) (range : index + count = Record.nargs)
    (place : Record.argvalSize ≤ offset) (small : parser.record.argval.length < 2 ^ 32)
    (room : offset + needFrom strings original count index ≤ parser.record.argval.length)
    (types : ∀ position, index ≤ position → position < Record.nargs →
      parser.record.getArgType position = original.getArgType position)
    (readable : ∀ position < Record.nargs, Readable original position)
    (input : parser.input = addArgsFrom strings original count index ++ rest) :
    ∃ after, Parser.readArgsFrom .v1_1 count index offset parser = some after ∧
      after.failed = false ∧ after.input = rest ∧ parser.SameSizes after ∧
      after.record = { parser.record with
        argtype := after.record.argtype, argval := after.record.argval } ∧
      (∀ position < index, after.record.getArgType position = parser.record.getArgType position) ∧
      (∀ position, index ≤ position → position < Record.nargs →
        (∀ earlier, index ≤ earlier → earlier ≤ position → original.getArgType earlier ≠ .none) →
        SameArg strings original after.record position) ∧
      (∀ start size, (start + size ≤ 8 * index ∨
          Record.argvalSize ≤ start ∧ start + size ≤ offset) →
        readAt after.record.argval start size = readAt parser.record.argval start size) := by
  induction count generalizing index offset parser with
  | zero =>
      refine ⟨parser, rfl, ok, by rw [input]; rfl, ⟨rfl, rfl, rfl, rfl⟩, rfl, fun _ _ => rfl, ?_,
        fun _ _ _ => rfl⟩
      intro position lower upper
      omega
  | succ count ih =>
      have inside : index < Record.nargs := by omega
      have type := types index (Nat.le_refl _) inside
      by_cases unset : original.getArgType index = .none
      · rw [addArgsFrom, if_pos unset] at input
        refine ⟨parser, ?_, ok, input, ⟨rfl, rfl, rfl, rfl⟩, rfl, fun _ _ => rfl, ?_,
          fun _ _ _ => rfl⟩
        · simp [Parser.readArgsFrom, type, unset]
        · intro position lower _ before
          exact absurd unset (before index (Nat.le_refl _) lower)
      · have set : parser.record.getArgType index ≠ .none := by rwa [type]
        rw [addArgsFrom, if_neg unset, List.append_assoc] at input
        rw [needFrom, if_neg unset] at room
        obtain ⟨whole, behindEq, storedSize, same⟩ := addArg_spec strings unset
          (readable index inside) (addArgsFrom strings original count (index + 1) ++ rest)
        rw [← input] at whole behindEq storedSize same
        rw [← type] at whole behindEq storedSize
        obtain ⟨argval, written⟩ := writeAt_exists parser.record.argval offset ((Field.ofType .v1_1
            (parser.record.getArgType index)).stored parser.input) (by omega)
        obtain ⟨middle, read, done⟩ := Parser.readArg_whole ok inside place small set whole written
        rw [storedSize] at read
        obtain ⟨after, finished, okAfter, inputAfter, sizes, header, earlierTypes, decoded,
            frame⟩ :=
          @ih (index + 1) middle (offset + argNeed strings original index) done.ok (by omega)
            (by omega) (by rw [done.length]; exact small)
            (by rw [done.length]; omega)
            (fun position lower upper => by
              rw [done.others position upper (by omega)]
              exact types position (by omega) upper)
            (by rw [done.input, behindEq])
        simp only [Record.nargs, Record.argvalSize] at inside place frame
        refine ⟨after, ?_, okAfter, inputAfter, ?_, ?_, ?_, ?_, ?_⟩
        · simp only [Parser.readArgsFrom, ok, set, Bool.false_eq_true, or_self, if_false, read,
            Option.bind_eq_bind, Option.bind_some, finished]
        · exact ⟨sizes.argval.trans done.length, sizes.ringName.trans done.ringName,
            sizes.areaName.trans done.areaName, sizes.sectionName.trans done.sectionName⟩
        · rw [header, done.header]
        · intro position below
          rw [earlierTypes position (by omega), done.others position (by omega) (by omega)]
        · intro position lower upper before
          rcases Nat.eq_or_lt_of_le lower with rfl | later
          · apply same after.record offset
            · rw [earlierTypes index (Nat.lt_succ_self _), done.type, type]
            · rw [← type]
              apply done.decoded.frame whole
              · exact fun start size from_slot to_slot => frame start size (by omega)
              · intro start size from_data to_data
                exact frame start size (by omega)
          · exact decoded position later upper fun earlier above below =>
              before earlier (by omega) below
        · intro start size apart
          simp only [Record.argvalSize] at apart
          rw [frame start size (by omega)]
          exact done.frame start size (by omega) (by omega)

end Arguments

/-! ## Whole records -/

section Records

variable {strings : UInt64 → List UInt8} {parser : Parser} {maxRecordSize : Nat}
  {rest : List UInt8}

theorem cstring_printable {name : List UInt8} (printable : PrintableName name) :
    cstring name = name := by
  rw [cstring, List.takeWhile_eq_self_iff]
  intro byte member
  have shown := List.all_eq_true.mp printable.1 byte member
  rw [decide_eq_true_iff]
  rintro rfl
  simp [isPrint] at shown

theorem addStr_name {name : List UInt8} (printable : PrintableName name) :
    addStr 1 name = leBytes 1 name.length ++ name := by
  have short := printable.2.2
  have clipped : min name.length (2 ^ (8 * 1) - 1) = name.length := by omega
  simp only [addStr, addBlob, clipped, List.take_length]

theorem readName_packed (parser : Parser) (stage : String) {buffer name : List UInt8}
    (ok : parser.failed = false)
    (size : buffer.length = maxNameLen) (printable : PrintableName name)
    (input : parser.input = addStr 1 name ++ rest) :
    ∃ after, parser.readName buffer stage = some (after, { parser with input := rest }) ∧
      after.length = maxNameLen ∧ cstring after = name := by
  have short := printable.2.2
  have bound : name.length < 256 ^ 1 := by omega
  rw [addStr_name printable] at input
  have complete : Complete 1 parser.input := by rw [input]; exact complete_packed bound rfl
  have bytes : available 1 parser.input = name := by rw [input]; exact available_packed bound rfl
  have behindEq : behind 1 parser.input = rest := by rw [input]; exact behind_packed bound rfl
  obtain ⟨after, written⟩ := writeAt_exists buffer 0 (terminated 1 parser.input) (by
      rw [size, terminated, if_pos complete, bytes, List.length_append, maxNameLen,
        List.length_singleton]
      omega)
  have content : cstring after = name := by
    rw [Parser.cstring_stored complete written, bytes, cstring_printable printable]
  have valid : validName after = true := by
    simp only [validName, content, printable.1, Bool.true_and, Bool.and_eq_true, decide_eq_true_eq]
    exact printable.2
  refine ⟨after, ?_, (writeAt_length written).trans size, content⟩
  simp only [Parser.readName, Parser.readStr_complete _ ok complete written, Option.bind_eq_bind,
    Option.bind_some, ok, valid, behindEq]
  rfl

theorem readHeader_packed (parser : Parser) {data : FormatData} (ready : parser.Ready maxRecordSize)
    (ok : parser.failed = false) (packable : Packable strings maxRecordSize data)
    (input : parser.input = leBytes 8 data.record.seqnum.toNat ++ (addStr 1 data.ringName ++
      (addStr 1 data.areaName ++ (addStr 1 data.sectName ++ rest)))) :
    ∃ after, parser.readHeader = some after ∧ after.failed = false ∧ after.input = rest ∧
      after.Ready maxRecordSize ∧
      after.record = { parser.record with seqnum := data.record.seqnum } ∧
      cstring after.ringName = data.ringName ∧ cstring after.areaName = data.areaName ∧
      cstring after.sectionName = data.sectName := by
  have enough : 8 ≤ parser.input.length := by
    rw [input, List.length_append, leBytes_length]
    omega
  have seqnum : BitVec.ofNat 52 (leValue (parser.input.take 8)) = data.record.seqnum := by
    have bound := data.record.seqnum.isLt
    rw [input, List.take_left' (leBytes_length _ _), leValue_leBytes_of_lt (by omega),
      BitVec.ofNat_toNat, BitVec.setWidth_eq]
  have opened := Parser.readUint_complete "seqnum" ok enough
  rw [show parser.input.drop 8 = _ from by rw [input, List.drop_left' (leBytes_length _ _)]]
    at opened
  obtain ⟨ringName, ring, ringSize, ringText⟩ := readName_packed { parser with
      input := addStr 1 data.ringName ++ (addStr 1 data.areaName ++
        (addStr 1 data.sectName ++ rest))
      record.seqnum := data.record.seqnum } "ring-name" ok ready.ringName packable.ringName rfl
  obtain ⟨areaName, area, areaSize, areaText⟩ := readName_packed { parser with
      input := addStr 1 data.areaName ++ (addStr 1 data.sectName ++ rest)
      record.seqnum := data.record.seqnum
      ringName } "area-name" ok ready.areaName packable.areaName rfl
  obtain ⟨sectionName, sect, sectSize, sectText⟩ := readName_packed { parser with
      input := addStr 1 data.sectName ++ rest
      record.seqnum := data.record.seqnum
      ringName
      areaName } "section-name" ok ready.sectionName packable.sectName rfl
  refine ⟨{ parser with
      input := rest, record.seqnum := data.record.seqnum, ringName, areaName, sectionName },
    ?_, ok, rfl, ⟨ready.argval, ringSize, areaSize, sectSize⟩, rfl, ringText, areaText, sectText⟩
  simp only [Parser.readHeader, opened, seqnum, ring, area, sect, Option.bind_eq_bind,
    Option.bind_some]
  rfl

/-- One call of `next` on a packed record. -/
theorem next_packed {data : FormatData} (ready : parser.Ready maxRecordSize)
    (most : maxRecordSize < 2 ^ 32) (ok : parser.failed = false)
    (packable : Packable strings maxRecordSize data)
    (input : parser.input = pack strings data ++ rest) :
    ∃ decoded after, parser.next .v1_1 = some (some decoded, after) ∧
      SameRecord strings data decoded ∧ after.failed = false ∧ after.input = rest ∧
      after.Ready maxRecordSize := by
  have fits := packable.fits
  have argvalSize := ready.argval
  simp only [Record.byteSize, Record.headerSize, Record.argvalSize] at fits argvalSize
  have layout : parser.input = leBytes 8 data.record.timestamp.toNat ++
      (leBytes 8 data.record.seqnum.toNat ++ (addStr 1 data.ringName ++ (addStr 1 data.areaName ++
        (addStr 1 data.sectName ++ (addArgs strings data.record ++ rest))))) := by
    rw [input, pack]
    simp only [List.append_assoc]
  have enough : 8 ≤ parser.input.length := by
    rw [layout, List.length_append, leBytes_length]
    omega
  have timestamp : UInt64.ofNat (announced 8 parser.input) = data.record.timestamp := by
    rw [announced, layout, List.take_left' (leBytes_length _ _),
      leValue_leBytes_of_lt data.record.timestamp.toNat_lt, UInt64.ofNat_toNat]
  obtain ⟨headed, header, headedOk, headedInput, headedReady, headedRecord, ringText, areaText,
      sectText⟩ := readHeader_packed parser.stamped
      ⟨ready.argval, ready.ringName, ready.areaName, ready.sectionName⟩ ok packable
      (by change parser.input.drop 8 = _; rw [layout, List.drop_left' (leBytes_length _ _)])
  have headedSize := headedReady.argval
  simp only [Record.headerSize] at headedSize
  have wordEnough : 8 ≤ headed.input.length := by
    rw [headedInput, addArgs]
    simp only [List.length_append, leBytes_length]
    omega
  have argtype : BitVec.ofNat 64 (leValue (headed.input.take 8)) = data.record.argtype := by
    rw [headedInput, addArgs, List.append_assoc, List.take_left' (leBytes_length _ _),
      leValue_leBytes_of_lt data.record.argtype.isLt, BitVec.ofNat_toNat, BitVec.setWidth_eq]
  obtain ⟨args, tailroom, few, holds⟩ := packable.stored
  obtain ⟨final, finished, finalOk, finalInput, sizes, finalHeader, -, decoded, -⟩ :=
    @readArgsFrom_packed strings data.record 0 { headed with
        input := headed.input.drop 8
        record.argtype := data.record.argtype } Record.argvalSize Record.nargs rest headedOk
          (Nat.zero_add _) (Nat.le_refl _) (by change headed.record.argval.length < 2 ^ 32; omega)
          (by change _ ≤ headed.record.argval.length; rw [Record.argvalSize]; omega)
          (fun position _ _ => rfl) (fun position inside => readable_of_holds holds inside) (by
        change headed.input.drop 8 = _
        rw [headedInput, addArgs, List.append_assoc, List.drop_left' (leBytes_length _ _)])
  have arguments : headed.readArgs .v1_1 = some final := by
    rw [Parser.readArgs_eq headedOk (Parser.readUint_complete _ headedOk wordEnough), argtype]
    exact finished
  have finalRecord : final.record = { parser.record with
      timestamp := data.record.timestamp, seqnum := data.record.seqnum, sect := 0,
      argtype := final.record.argtype, argval := final.record.argval } := by
    rw [finalHeader]
    simp only [headedRecord, Parser.stamped, Parser.cleared, timestamp]
  refine ⟨final.formatData, final, ?_, ?_, finalOk, finalInput, ?_⟩
  · rw [Parser.next_stamped .v1_1 ok enough, header, Option.bind_some, arguments, Option.bind_some,
      finalOk]
    rfl
  · refine ⟨?_, ?_, ?_, ?_, ?_, ?_⟩
    · change final.record.timestamp = _
      rw [finalRecord]
    · change final.record.seqnum = _
      rw [finalRecord]
    · exact (congrArg cstring sizes.ringName).trans ringText
    · exact (congrArg cstring sizes.areaName).trans areaText
    · have sect : final.record.sect = 0 := by rw [finalRecord]
      change Area.sectionName ⟨cstring final.areaName, [cstring final.sectionName]⟩
        final.record.sect.toNat = _
      rw [sect]
      exact (congrArg cstring sizes.sectionName).trans sectText
    · intro index inside before
      exact decoded index (Nat.zero_le _) inside fun earlier _ below => before earlier below
  · exact ⟨sizes.argval.trans headedReady.argval, sizes.ringName ▸ headedReady.ringName,
      sizes.areaName ▸ headedReady.areaName, sizes.sectionName ▸ headedReady.sectionName⟩

/-- A parser of the current version reads back every list of packed records,
and then the end of the input. -/
theorem raw_round_trip {items : List FormatData} (ready : parser.Ready maxRecordSize)
    (most : maxRecordSize < 2 ^ 32) (ok : parser.failed = false)
    (packable : ∀ item ∈ items, Packable strings maxRecordSize item)
    (input : parser.input = items.flatMap (pack strings)) :
    ∃ decoded final, parser.readAll .v1_1 (items.length + 1) = some (decoded, final) ∧
      List.Forall₂ (SameRecord strings) items decoded ∧ final.failed = false ∧
      final.input = [] := by
  induction items generalizing parser with
  | nil =>
      obtain ⟨final, ended, finalOk, finalInput⟩ := Parser.next_short .v1_1 ok
        (by rw [input]; exact Nat.zero_lt_succ _)
      refine ⟨[], final, ?_, .nil, finalOk, finalInput⟩
      simp only [List.length_nil, Parser.readAll, ended, Option.bind_eq_bind,
        Option.bind_some]
      rfl
  | cons item items ih =>
      rw [List.flatMap_cons] at input
      obtain ⟨first, after, read, same, afterOk, afterInput, afterReady⟩ :=
        next_packed ready most ok (packable item (by simp)) input
      obtain ⟨others, final, rest, sames, finalOk, finalInput⟩ := ih afterReady afterOk
        (fun other member => packable other (by simp [member])) afterInput
      refine ⟨first :: others, final, ?_, .cons same sames, finalOk, finalInput⟩
      rw [List.length_cons, Parser.readAll]
      simp only [read, rest, Option.bind_eq_bind, Option.bind_some]
      rfl

/-- A record with one string, as `set_args` stores it. -/
def greeting : FormatData :=
  { ringName := ascii "RING"
    record := { area := some ⟨ascii "AREA", [ascii "INFO"]⟩, timestamp := 7, seqnum := 3, sect := 0,
                argtype := 7
                argval := leBytes 4 8 ++ leBytes 4 2 ++ ascii "hi" ++ List.replicate 118 0 } }

theorem greeting_packable {maxRecordSize : Nat} (room : 163 ≤ maxRecordSize) :
    Packable (fun _ => []) maxRecordSize greeting := by
  have stored : greeting.record.Holds [.cstr (ascii "hi")] 128 :=
    Record.StoredFrom.holds (by simp [greeting, ascii]) (by decide) (by decide)
      ⟨⟨by decide, fun _ => by decide, by decide⟩, trivial⟩
  exact
    { stored := ⟨_, _, by decide, stored⟩
      pointers := by decide
      ringName := ⟨by decide, by decide, by decide⟩
      areaName := ⟨by decide, by decide, by decide⟩
      sectName := ⟨by decide, by decide, by decide⟩
      fits := Nat.le_trans (by decide) room }

theorem raw_round_trip_greeting : ∃ decoded final,
    (Parser.blankParser 1024 ([greeting].flatMap (pack fun _ => []))).readAll .v1_1 2 =
      some (decoded, final) ∧
    List.Forall₂ (SameRecord fun _ => []) [greeting] decoded ∧ final.failed = false ∧
      final.input = [] :=
  @raw_round_trip _ (Parser.blankParser 1024 ([greeting].flatMap (pack fun _ => []))) 1024
    [greeting] (Parser.blankParser_ready _ _) (by decide) rfl
    (fun item member => by
      rw [List.mem_singleton.mp member]
      exact greeting_packable (by decide)) rfl

end Records

end Hogl.Raw
