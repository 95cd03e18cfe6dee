import Hogl.Raw.Reads
import Hogl.Record.Storage

namespace Hogl.Raw

open Hogl.Data

/-! # Reading one argument

The argument types share three encodings: a string, a block with a length in
front, and a word of fixed width. -/

inductive Field where
  | text
  | block (width : Nat)
  | word (width : Nat)
deriving Repr, DecidableEq

namespace Field

/-- The encoding of an argument type. -/
def ofType (version : Version) : ArgType → Field
  | .cstr | .gstr => .text
  | .xdump | .raw => .block (Parser.blobWidth version)
  | .int32 | .uint32 => .word 4
  | _ => .word 8

/-- The bytes the parser stores behind the arguments it has read so far. -/
def stored (field : Field) (input : List UInt8) : List UInt8 :=
  match field with
  | .text => terminated 2 input
  | .block width => available width input
  | .word _ => []

/-- The input has the whole argument. -/
def Whole (field : Field) (input : List UInt8) : Prop :=
  match field with
  | .text => Complete 2 input
  | .block width => Complete width input
  | .word width => width ≤ input.length

instance (field : Field) (input : List UInt8) : Decidable (field.Whole input) :=
  match field with
  | .text => inferInstanceAs (Decidable (Complete 2 input))
  | .block width => inferInstanceAs (Decidable (Complete width input))
  | .word width => inferInstanceAs (Decidable (width ≤ input.length))

/-- The input behind a whole argument. -/
def rest (field : Field) (input : List UInt8) : List UInt8 :=
  match field with
  | .text => behind 2 input
  | .block width => behind width input
  | .word width => input.drop width

end Field

/-- The type an argument has once it is read. -/
def readType : ArgType → ArgType
  | .gstr => .cstr
  | type => type

/-- The argument at `index` is what the field at the start of `input` says. -/
def Decoded (record : Record) (field : Field) (input : List UInt8) (index offset : Nat) : Prop :=
  match field with
  | .text => record.dataOffset index = offset ∧ record.dataLen index = announced 2 input ∧
      readAt record.argval offset (announced 2 input) = available 2 input
  | .block width =>
      record.dataOffset index = offset ∧ record.dataLen index = announced width input ∧
      readAt record.argval offset (announced width input) = available width input
  | .word width => if width = 4 then record.getArgVal32 index = UInt32.ofNat (announced 4 input)
      else record.getArgVal64 index = UInt64.ofNat (announced 8 input)

namespace Parser

variable {version : Version} {parser : Parser} {index offset : Nat}

/-- A whole argument was read to `offset`. -/
structure ArgRead (version : Version) (parser after : Parser) (index offset : Nat) : Prop where
  ok : after.failed = false
  input : after.input = (Field.ofType version (parser.record.getArgType index)).rest parser.input
  ringName : after.ringName = parser.ringName
  areaName : after.areaName = parser.areaName
  sectionName : after.sectionName = parser.sectionName
  header : after.record = { parser.record with
    argtype := after.record.argtype, argval := after.record.argval }
  others : ∀ other < Record.nargs, other ≠ index →
    after.record.getArgType other = parser.record.getArgType other
  type : after.record.getArgType index = readType (parser.record.getArgType index)
  length : after.record.argval.length = parser.record.argval.length
  frame : ∀ start size, (start + size ≤ 8 * index ∨ 8 * index + 8 ≤ start) →
    (start + size ≤ offset ∨
      offset + ((Field.ofType version (parser.record.getArgType index)).stored parser.input).length
        ≤ start) →
    readAt after.record.argval start size = readAt parser.record.argval start size
  decoded : Decoded after.record (Field.ofType version (parser.record.getArgType index))
    parser.input
    index offset

theorem remapGlobal_argval (record : Record) (index : Nat) :
    (record.remapGlobal index).argval = record.argval := by
  rw [Record.remapGlobal]
  split <;> rfl

theorem remapGlobal_header (record : Record) (index : Nat) :
    record.remapGlobal index =
      { record with argtype := (record.remapGlobal index).argtype } := by
  rw [Record.remapGlobal]
  split <;> rfl

theorem remapGlobal_other (record : Record) {other : Nat} (inside : other < Record.nargs)
    (different : other ≠ index) :
    (record.remapGlobal index).getArgType other = record.getArgType other := by
  rw [Record.remapGlobal]
  split
  · rw [Record.getArgType, Record.setArgType, nibble_orNibble_other _ _ different,
      Record.clearArgType, nibble_clearNibble_other _ inside different]
    rfl
  · rfl

theorem remapGlobal_type (record : Record) (inside : index < Record.nargs)
    (text : record.getArgType index = .cstr ∨ record.getArgType index = .gstr) :
    (record.remapGlobal index).getArgType index = .cstr := by
  rw [Record.remapGlobal]
  split
  · rw [Record.getArgType, Record.setArgType, nibble_orNibble_same _ _ inside, Record.clearArgType,
      nibble_clearNibble_same _ inside]
    rfl
  · rename_i plain
    exact text.resolve_right plain

/-- Store a field behind the arguments and describe it in its slot. -/
theorem store_field (record : Record) (len : UInt32) {bytes argval : List UInt8}
    (inside : index < Record.nargs) (place : Record.argvalSize ≤ offset)
    (small : record.argval.length < 2 ^ 32)
    (written : writeAt record.argval offset bytes = some argval) :
    ∃ after, Record.setArgData { record with argval } index (UInt32.ofNat offset) len = some after ∧
      record.SameOutside after index offset bytes.length ∧ after.dataOffset index = offset ∧
      after.dataLen index = len.toNat ∧ readAt after.argval offset bytes.length = bytes := by
  have room := writeAt_inside written
  have length := writeAt_length written
  simp only [Record.nargs, Record.argvalSize] at inside place
  obtain ⟨after, stored, same, offsetRead, lenRead⟩ := Record.setArgData_spec { record with argval }
    index (UInt32.ofNat offset) len (by change _ ≤ argval.length; omega)
  have offsetEq : (UInt32.ofNat offset).toNat = offset := by
    rw [UInt32.toNat_ofNat']
    omega
  refine ⟨after, stored, ⟨?_, same.length.trans length, ?_⟩, offsetRead.trans offsetEq, lenRead, ?_⟩
  · rw [same.header]
  · intro start size slotApart apart
    rw [same.frame start size slotApart (by omega)]
    exact readAt_writeAt_frame written apart
  · rw [same.frame _ _ (by omega) (by omega)]
    exact readAt_writeAt_same written

/-! ## The three kinds -/

theorem announced_lt (width : Nat) (input : List UInt8) : announced width input < 256 ^ width := by
  refine Nat.lt_of_lt_of_le (leValue_lt _) ?_
  exact Nat.pow_le_pow_right (by decide) (by rw [List.length_take]; omega)

theorem ofType_text {type : ArgType} (field : Field.ofType version type = .text) :
    type = .cstr ∨ type = .gstr := by
  cases type <;> simp [Field.ofType] at field ⊢

theorem ofType_block {type : ArgType} {width : Nat}
    (field : Field.ofType version type = .block width) :
    (type = .xdump ∨ type = .raw) ∧ width = blobWidth version := by
  cases type <;> simp [Field.ofType] at field ⊢ <;> exact field.symm

theorem readArg_text
    (field : Field.ofType version (parser.record.getArgType index) = .text) :
    parser.readArg version index offset =
      (parser.readStr 2 parser.record.argval offset "cstr-arg").bind fun (n, argval, after) =>
        (Record.setArgData { parser.record.remapGlobal index with argval } index
          (UInt32.ofNat offset) (UInt32.ofNat n - 1)).bind fun record =>
            some (offset + n, { after with record }) := by
  rcases ofType_text field with type | type <;>
  · simp only [readArg, type, remapGlobal_argval]
    rfl

theorem readArg_block {width : Nat}
    (field : Field.ofType version (parser.record.getArgType index) = .block width) :
    parser.readArg version index offset =
      (parser.readBlob width parser.record.argval offset "raw-arg").bind fun (n, argval, after) =>
        (Record.setArgData { after.record with argval } index (UInt32.ofNat offset)
          (UInt32.ofNat n)).bind fun record => some (offset + n, { after with record }) := by
  obtain ⟨type | type, rfl⟩ := ofType_block field <;>
  · simp only [readArg, type]
    rfl

theorem readArg_word {width : Nat} (offset : Nat) (set : parser.record.getArgType index ≠ .none)
    (field : Field.ofType version (parser.record.getArgType index) = .word width) :
    (width = 4 ∧ parser.readArg version index offset =
      let (val, after) := parser.readUint 4 "uint32-arg"
      (after.record.setArgVal32 index (UInt32.ofNat val)).bind fun record =>
        some (offset, { after with record })) ∨
    (width = 8 ∧ parser.readArg version index offset =
      let (val, after) := parser.readUint 8 "uint64-arg"
      (after.record.setArgVal64 index (UInt64.ofNat val)).bind fun record =>
        some (offset, { after with record })) := by
  cases type : parser.record.getArgType index with
  | none => exact absurd type set
  | int32 | uint32 =>
      rw [type] at field
      cases field
      left
      simp only [readArg, type]
      exact ⟨trivial, rfl⟩
  | cstr | gstr | xdump | raw => simp [Field.ofType, type] at field
  | uint64 | int64 | pointer | double | unassigned =>
      rw [type] at field
      cases field
      right
      simp only [readArg, type]
      exact ⟨trivial, rfl⟩

/-- A field that does not fit behind `offset` is stored all the same. -/
theorem readArg_fault (ok : parser.failed = false) (room : offset ≤ parser.record.argval.length)
    (outside : writeAt parser.record.argval offset
      ((Field.ofType version (parser.record.getArgType index)).stored parser.input) = none) :
    parser.readArg version index offset = none := by
  cases field : Field.ofType version (parser.record.getArgType index) with
  | text =>
      rw [field] at outside
      rw [readArg_text field, readStr_fault ok outside room, Option.bind_none]
  | block width =>
      rw [field] at outside
      rw [readArg_block field, readBlob_fault ok outside room, Option.bind_none]
  | word width =>
      rw [field, Field.stored, writeAt, if_pos (by simpa using room)] at outside
      cases outside

section Bounded

variable (ok : parser.failed = false) (inside : index < Record.nargs)
  (place : Record.argvalSize ≤ offset) (small : parser.record.argval.length < 2 ^ 32)
include ok inside place small

theorem readArg_text_whole {argval : List UInt8}
    (field : Field.ofType version (parser.record.getArgType index) = .text)
    (whole : Complete 2 parser.input)
    (written : writeAt parser.record.argval offset (terminated 2 parser.input) = some argval) :
    ∃ after, parser.readArg version index offset =
        some (offset + (terminated 2 parser.input).length, after) ∧
      parser.ArgRead version after index offset := by
  have text := ofType_text field
  have kind : readType (parser.record.getArgType index) = .cstr := by
    rcases text with type | type <;> rw [type] <;> rfl
  have bytesEq : terminated 2 parser.input = available 2 parser.input ++ [0] := if_pos whole
  have size := terminated_length whole
  have bound := announced_lt 2 parser.input
  have lenEq : (UInt32.ofNat (announced 2 parser.input + 1) - 1).toNat =
      announced 2 parser.input := by
    have whole : (UInt32.ofNat (announced 2 parser.input + 1)).toNat =
        announced 2 parser.input + 1 := by
      rw [UInt32.toNat_ofNat']
      omega
    rw [UInt32.toNat_sub_of_le _ _
        (by rw [UInt32.le_iff_toNat_le, whole]; exact Nat.le_add_left 1 _),
      whole]
    rfl
  obtain ⟨after, stored, same, placed, len, bytes⟩ := store_field (parser.record.remapGlobal index)
    (UInt32.ofNat (announced 2 parser.input + 1) - 1) inside place
    (by rw [remapGlobal_argval]; exact small) (by rw [remapGlobal_argval]; exact written)
  have header := same.header
  rw [remapGlobal_header] at header
  have types : after.argtype = (parser.record.remapGlobal index).argtype := by rw [same.header]
  refine ⟨{ parser with input := behind 2 parser.input, record := after }, ?_, ?_⟩
  · rw [readArg_text field, readStr_complete _ ok whole written, size]
    simp only [Option.bind_some, stored]
  · refine ⟨ok, by rw [field]; rfl, rfl, rfl, rfl, ?_, ?_, ?_, ?_, ?_, ?_⟩
    · rw [header]
    · intro other bound different
      rw [← remapGlobal_other parser.record bound different, Record.getArgType, types]
      rfl
    · rw [kind, ← remapGlobal_type parser.record inside text, Record.getArgType, types]
      rfl
    · rw [same.length, remapGlobal_argval]
    · intro start count slotApart apart
      rw [field] at apart
      rw [same.frame start count slotApart apart, remapGlobal_argval]
    · rw [field]
      refine ⟨placed, len.trans lenEq, ?_⟩
      rw [bytesEq, List.length_append, available_length whole, readAt_add] at bytes
      apply (List.append_inj' bytes ?_).1
      have count := congrArg List.length bytes
      simp only [List.length_append, readAt, List.length_take, List.length_drop,
        available_length whole] at count ⊢
      omega

theorem readArg_block_whole {argval : List UInt8} {width : Nat}
    (field : Field.ofType version (parser.record.getArgType index) = .block width)
    (whole : Complete width parser.input)
    (written : writeAt parser.record.argval offset (available width parser.input) = some argval) :
    ∃ after, parser.readArg version index offset =
        some (offset + (available width parser.input).length, after) ∧
      parser.ArgRead version after index offset := by
  obtain ⟨kind, widthEq⟩ := ofType_block field
  have size := available_length whole
  have bound := announced_lt width parser.input
  have widthBound : 256 ^ width ≤ 2 ^ 32 := by
    rw [widthEq]
    cases version <;> decide
  have lenEq : (UInt32.ofNat (announced width parser.input)).toNat =
      announced width parser.input := by
    rw [UInt32.toNat_ofNat']
    omega
  obtain ⟨after, stored, same, placed, len, bytes⟩ := store_field parser.record
    (UInt32.ofNat (announced width parser.input)) inside place small written
  refine ⟨{ parser with input := behind width parser.input, record := after }, ?_, ?_⟩
  · rw [readArg_block field, readBlob_complete ok whole written, size]
    simp only [Option.bind_some, stored]
  · have types : after.argtype = parser.record.argtype := by rw [same.header]
    refine ⟨ok, by rw [field]; rfl, rfl, rfl, rfl, ?_, ?_, ?_, same.length, ?_, ?_⟩
    · rw [same.header]
    · intro other _ _
      rw [Record.getArgType, types]
      rfl
    · rw [Record.getArgType, types]
      rcases kind with type | type <;>
      · rw [type]
        exact type
    · intro start count slotApart apart
      rw [field] at apart
      exact same.frame start count slotApart apart
    · rw [field]
      refine ⟨placed, len.trans lenEq, ?_⟩
      rwa [size] at bytes

theorem readArg_word_whole {width : Nat} (set : parser.record.getArgType index ≠ .none)
    (field : Field.ofType version (parser.record.getArgType index) = .word width)
    (whole : width ≤ parser.input.length) (room : offset ≤ parser.record.argval.length) :
    ∃ after, parser.readArg version index offset = some (offset, after) ∧
      parser.ArgRead version after index offset := by
  simp only [Record.nargs, Record.argvalSize] at inside place
  have kind : readType (parser.record.getArgType index) = parser.record.getArgType index := by
    cases type : parser.record.getArgType index <;> first | rfl | simp [Field.ofType, type] at field
  have slot : 8 * index + 8 ≤ parser.record.argval.length := by omega
  rcases readArg_word offset set field with ⟨rfl, eq⟩ | ⟨rfl, eq⟩
  · obtain ⟨after, stored, same, loaded⟩ := parser.record.setArgVal32_spec index
      (UInt32.ofNat (announced 4 parser.input)) slot
    have types : after.argtype = parser.record.argtype := by rw [same.header]
    refine ⟨{ parser with input := parser.input.drop 4, record := after }, ?_, ?_⟩
    · rw [eq, readUint_complete _ ok whole]
      simp only
      rw [← announced, stored]
      rfl
    · refine ⟨ok, by rw [field]; rfl, rfl, rfl, rfl, ?_, ?_, ?_, same.length, ?_, ?_⟩
      · rw [same.header]
      · intro other _ _
        rw [Record.getArgType, types]
        rfl
      · rw [kind, Record.getArgType, types]
        rfl
      · exact fun start count slotApart _ => same.frame start count slotApart (by omega)
      · rw [field]
        exact loaded
  · obtain ⟨after, stored, same, loaded, -⟩ := parser.record.setArgVal64_spec index
      (UInt64.ofNat (announced 8 parser.input)) slot
    have types : after.argtype = parser.record.argtype := by rw [same.header]
    refine ⟨{ parser with input := parser.input.drop 8, record := after }, ?_, ?_⟩
    · rw [eq, readUint_complete _ ok whole]
      simp only
      rw [← announced, stored]
      rfl
    · refine ⟨ok, by rw [field]; rfl, rfl, rfl, rfl, ?_, ?_, ?_, same.length, ?_, ?_⟩
      · rw [same.header]
      · intro other _ _
        rw [Record.getArgType, types]
        rfl
      · rw [kind, Record.getArgType, types]
        rfl
      · exact fun start count slotApart _ => same.frame start count slotApart (by omega)
      · rw [field]
        exact loaded

theorem readArg_whole {argval : List UInt8} (set : parser.record.getArgType index ≠ .none)
    (whole : (Field.ofType version (parser.record.getArgType index)).Whole parser.input)
    (written : writeAt parser.record.argval offset
      ((Field.ofType version (parser.record.getArgType index)).stored parser.input) = some argval) :
    ∃ after, parser.readArg version index offset = some (offset +
        ((Field.ofType version (parser.record.getArgType index)).stored
          parser.input).length, after) ∧
      parser.ArgRead version after index offset := by
  cases field : Field.ofType version (parser.record.getArgType index) with
  | text =>
      rw [field] at whole written
      exact readArg_text_whole ok inside place small field whole written
  | block width =>
      rw [field] at whole written
      exact readArg_block_whole ok inside place small field whole written
  | word width =>
      rw [field] at whole written
      exact readArg_word_whole ok inside place small set field whole (writeAt_inside written)

/-- Where the input ends inside an argument the parser fails, with the bytes
there were already stored. -/
theorem readArg_partial {argval : List UInt8} (set : parser.record.getArgType index ≠ .none)
    (cut : ¬ (Field.ofType version (parser.record.getArgType index)).Whole parser.input)
    (written : writeAt parser.record.argval offset
      ((Field.ofType version (parser.record.getArgType index)).stored parser.input) = some argval) :
    ∃ next after, parser.readArg version index offset = some (next, after) ∧
      after.failed = true ∧ after.ringName = parser.ringName ∧ after.areaName = parser.areaName ∧
      after.sectionName = parser.sectionName ∧
      after.record.argval.length = parser.record.argval.length := by
  have room := writeAt_inside written
  have length := writeAt_length written
  have slot : 8 * index + 8 ≤ parser.record.argval.length := by
    simp only [Record.nargs, Record.argvalSize] at inside place
    omega
  cases field : Field.ofType version (parser.record.getArgType index) with
  | text =>
      rw [field] at cut written
      obtain ⟨final, read, failed, same⟩ := readStr_incomplete "cstr-arg" ok cut written
      obtain ⟨after, stored, kept, -⟩ := Record.setArgData_spec
        { parser.record.remapGlobal index with argval } index (UInt32.ofNat offset)
        (UInt32.ofNat 0 - 1) (by change _ ≤ argval.length; omega)
      refine ⟨offset + 0, { final with record := after }, ?_, failed, same.ringName, same.areaName,
        same.sectionName, kept.length.trans length⟩
      rw [readArg_text field, read]
      simp only [Option.bind_some, stored]
  | block width =>
      rw [field] at cut written
      obtain ⟨final, read, failed, same⟩ := readBlob_incomplete "raw-arg" ok cut written
      obtain ⟨after, stored, kept, -⟩ := Record.setArgData_spec
        { final.record with argval } index (UInt32.ofNat offset) (UInt32.ofNat 0)
        (by change _ ≤ argval.length; omega)
      refine ⟨offset + 0, { final with record := after }, ?_, failed, same.ringName, same.areaName,
        same.sectionName, kept.length.trans length⟩
      rw [readArg_block field, read]
      simp only [Option.bind_some, stored]
  | word width =>
      rw [field] at cut
      rcases readArg_word offset set field with ⟨rfl, eq⟩ | ⟨rfl, eq⟩
      · obtain ⟨final, read, failed, same, -⟩ := readUint_short "uint32-arg" ok
          (Nat.lt_of_not_le cut)
        obtain ⟨after, stored, kept, -⟩ := final.record.setArgVal32_spec index
          (UInt32.ofNat (leValue parser.input)) (by rw [same.record]; exact slot)
        refine ⟨offset, { final with record := after }, ?_, failed, same.ringName, same.areaName,
          same.sectionName, kept.length.trans (by rw [same.record])⟩
        rw [eq, read]
        simp only [stored, Option.bind_some]
      · obtain ⟨final, read, failed, same, -⟩ := readUint_short "uint64-arg" ok
          (Nat.lt_of_not_le cut)
        obtain ⟨after, stored, kept, -⟩ := final.record.setArgVal64_spec index
          (UInt64.ofNat (leValue parser.input)) (by rw [same.record]; exact slot)
        refine ⟨offset, { final with record := after }, ?_, failed, same.ringName, same.areaName,
          same.sectionName, kept.length.trans (by rw [same.record])⟩
        rw [eq, read]
        simp only [stored, Option.bind_some]

end Bounded

end Parser

end Hogl.Raw
