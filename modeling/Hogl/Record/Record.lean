import Hogl.Record.Args

namespace Hogl

open Hogl.Data

/-! # Log records

`include/hogl/detail/record.hpp` and `argpack.hpp`.  The header fields are
kept apart; `argval` is the memory from the argument values to the end of the
record, so its length is the tailroom of the record.  Writes into it are
partial, and the `unsigned int` arithmetic on lengths and offsets wraps. -/

/-- `hogl::area`: its name and the names of its sections. -/
structure Area where
  name : List UInt8
  sections : List (List UInt8)
deriving Repr, DecidableEq

def Area.sectionName (area : Area) (index : Nat) : List UInt8 :=
  area.sections.getD index (ascii "INVALID")

structure Record where
  area : Option Area
  timestamp : UInt64
  seqnum : BitVec 52
  sect : BitVec 12
  argtype : BitVec 64
  argval : List UInt8
deriving Repr, DecidableEq

/-- The encoded arguments that `push` hands to the out-of-line encoder.  For a
data argument `argptr` is what its pointer refers to. -/
structure Argpack where
  argtype : BitVec 64
  argval : Nat → UInt64
  argptr : Nat → Arg
  arglen : Nat → UInt32

namespace Record

/-- `record::NARGS`. -/
def nargs : Nat := 16

/-- `record::argval_size()`. -/
def argvalSize : Nat := 128

/-- `record::header_size()`. -/
def headerSize : Nat := 32

/-- `sizeof(record)`. -/
def byteSize : Nat := headerSize + argvalSize

def setArgType (record : Record) (index : Nat) (type : ArgType) : Record :=
  { record with argtype := orNibble record.argtype index type.code }

def getArgType (record : Record) (index : Nat) : ArgType := .ofNibble (nibble record.argtype index)

def clearArgType (record : Record) (index : Nat) : Record :=
  { record with argtype := clearNibble record.argtype index }

/-- A store into the argument memory. -/
def write (record : Record) (offset : Nat) (bytes : List UInt8) : Option Record :=
  (writeAt record.argval offset bytes).map fun argval => { record with argval }

def setArgVal32 (record : Record) (index : Nat) (val : UInt32) : Option Record :=
  record.write (8 * index) (leBytes 4 val.toNat)

def setArgVal64 (record : Record) (index : Nat) (val : UInt64) : Option Record :=
  record.write (8 * index) (leBytes 8 val.toNat)

def setArgData (record : Record) (index : Nat) (offset len : UInt32) : Option Record := do
  let record ← record.write (8 * index) (leBytes 4 offset.toNat)
  record.write (8 * index + 4) (leBytes 4 len.toNat)

def getArgVal32 (record : Record) (index : Nat) : UInt32 :=
  UInt32.ofNat (leValue (readAt record.argval (8 * index) 4))

def getArgVal64 (record : Record) (index : Nat) : UInt64 :=
  UInt64.ofNat (leValue (readAt record.argval (8 * index) 8))

/-- `argval[i].data.offset`. -/
def dataOffset (record : Record) (index : Nat) : Nat :=
  leValue (readAt record.argval (8 * index) 4)

/-- `argval[i].data.len`. -/
def dataLen (record : Record) (index : Nat) : Nat :=
  leValue (readAt record.argval (8 * index + 4) 4)

/-- The bytes `get_arg_data` points at, as many as it reports. -/
def getArgData (record : Record) (index : Nat) : List UInt8 :=
  readAt record.argval (record.dataOffset index) (record.dataLen index)

/-- Copy a string with its terminator, marking a truncated one. -/
def copyCstr (record : Record) (index : Nat) (str : List UInt8) (len tailroom offset : UInt32) :
    Option (Record × UInt32) := do
  let room := tailroom - offset
  if len = 0 ∨ room = 0 then
    let record ← record.setArgData index 0 0
    return (record, 0)
  let room := room - 1
  if room < len then
    let record ← if 3 < room then do
        let record ← record.write (offset.toNat + (room - 3).toNat) (ascii ">>>")
        record.write offset.toNat (str.take (room - 3).toNat)
      else record.write offset.toNat (str.take room.toNat)
    let record ← record.write (offset.toNat + room.toNat) [0]
    let record ← record.setArgData index offset room
    return (record, room + 1)
  else
    let record ← record.write offset.toNat (str.take len.toNat)
    let record ← record.write (offset.toNat + len.toNat) [0]
    let record ← record.setArgData index offset len
    return (record, len + 1)

def copyData (record : Record) (index : Nat) (data : List UInt8) (len tailroom offset : UInt32) :
    Option (Record × UInt32) := do
  let room := tailroom - offset
  let len := if room < len then room else len
  let record ← record.write offset.toNat (data.take len.toNat)
  let record ← record.setArgData index offset len
  return (record, len)

def copyXdump (record : Record) (index : Nat) (format : XdumpFormat) (data : List UInt8)
    (dataLen tailroom offset : UInt32) : Option (Record × UInt32) := do
  let hlen := UInt32.ofNat XdumpFormat.byteSize
  let room := tailroom - offset
  let len := hlen + dataLen
  let len := if room < len then room else len
  if len < hlen then
    let record ← record.setArgData index 0 0
    return (record, 0)
  let dlen := len - hlen
  let record ← record.write offset.toNat format.bytes
  let record ← record.write (offset.toNat + hlen.toNat) (data.take dlen.toNat)
  let record ← record.setArgData index offset len
  return (record, len)

/-- `record::set_arg`; the result carries the advanced offset. -/
def setArg (record : Record) (index : Nat) (arg : Arg) (tailroom offset : UInt32) :
    Option (Record × UInt32) :=
  match arg with
  | .none => some (record, offset)
  | .raw data => do
      let (record, used) ← (record.setArgType index .raw).copyData index data arg.len tailroom
        offset
      return (record, offset + used)
  | .xdump format data => do
      let (record, used) ←
        (record.setArgType index .xdump).copyXdump index format data arg.len tailroom offset
      return (record, offset + used)
  | .cstr str => do
      let (record, used) ← (record.setArgType index .cstr).copyCstr index str arg.len tailroom
        offset
      return (record, offset + used)
  | .value type val => do
      let record := record.setArgType index type.argType
      let record ← if type.argType.is32bit then record.setArgVal32 index val.toUInt32
        else record.setArgVal64 index val
      return (record, offset)

def setArgsFrom (tailroom : UInt32) :
    List Arg → Nat → UInt32 → Record → Option (Record × UInt32)
  | [], _, offset, record => some (record, offset)
  | arg :: args, index, offset, record => do
      let (record, offset) ← record.setArg index arg tailroom offset
      setArgsFrom tailroom args (index + 1) offset record

/-- `record::set_args` with the arguments inline. -/
def setArgs (record : Record) (tailroom : UInt32) (args : List Arg) : Option Record := do
  let count := args.countP (· ≠ .none)
  let (record, _) ← setArgsFrom tailroom args 0 (UInt32.ofNat (count * 8))
    { record with argtype := 0 }
  return record

end Record

namespace Argpack

/-- The loop of `argpack::nargs`: a 64-bit word is zero after sixteen shifts. -/
def nargsFrom : Nat → BitVec 64 → Nat
  | 0, _ => 0
  | fuel + 1, types => if types = 0 then 0 else nargsFrom fuel (types >>> 4) + 1

def nargs (pack : Argpack) : Nat := nargsFrom 16 pack.argtype

def getArgType (pack : Argpack) (index : Nat) : ArgType := .ofNibble (nibble pack.argtype index)

/-- `argpack::set_arg`, with 1 for an argument that is not simple.  A 32-bit
value replaces only the low half of its union. -/
def setArg (pack : Argpack) (index : Nat) (arg : Arg) : Argpack × Nat :=
  let pack' := { pack with argtype := orNibble pack.argtype index arg.type.code }
  match arg with
  | .none => (pack, 0)
  | .value type val =>
      let old := pack.argval index
      let word := if type.argType.is32bit then
          UInt64.ofNat (old.toNat / 2 ^ 32 * 2 ^ 32 + val.toNat % 2 ^ 32) else val
      ({ pack' with argval := Function.update pack.argval index word }, 0)
  | .cstr _ | .raw _ | .xdump _ _ =>
      ({ pack' with
        argptr := Function.update pack.argptr index arg
        arglen := Function.update pack.arglen index arg.len }, 1)

def populateFrom : List Arg → Nat → Argpack → Argpack × Nat
  | [], _, pack => (pack, 0)
  | arg :: args, index, pack =>
      let (pack, complex) := pack.setArg index arg
      let (pack, rest) := populateFrom args (index + 1) pack
      (pack, complex + rest)

/-- `argpack::populate`; `pack` is the uninitialised object on the stack. -/
def populate (pack : Argpack) (args : List Arg) : Argpack × Nat :=
  populateFrom args 0 { pack with argtype := 0 }

end Argpack

namespace Record

def setPackedArg (record : Record) (pack : Argpack) (index : Nat) (tailroom offset : UInt32) :
    Option (Record × UInt32) :=
  match pack.getArgType index, pack.argptr index with
  | .raw, arg => do
      let (record, used) ← record.copyData index arg.data (pack.arglen index) tailroom offset
      return (record, offset + used)
  | .xdump, .xdump format data => do
      let (record, used) ←
        record.copyXdump index format data (UInt32.ofNat data.length) tailroom offset
      return (record, offset + used)
  | .cstr, arg => do
      let (record, used) ← record.copyCstr index arg.data (pack.arglen index) tailroom offset
      return (record, offset + used)
  | _, _ => do
      let record ← record.setArgVal64 index (pack.argval index)
      return (record, offset)

def setPackedArgsFrom (tailroom : UInt32) (pack : Argpack) :
    Nat → Nat → UInt32 → Record → Option (Record × UInt32)
  | 0, _, offset, record => some (record, offset)
  | count + 1, index, offset, record => do
      let (record, offset) ← record.setPackedArg pack index tailroom offset
      setPackedArgsFrom tailroom pack count (index + 1) offset record

/-- `record::set_args` with an argument pack. -/
def setPackedArgs (record : Record) (tailroom : UInt32) (pack : Argpack) : Option Record := do
  let count := pack.nargs
  let (record, _) ← setPackedArgsFrom tailroom pack count 0 (UInt32.ofNat (count * 8))
    { record with argtype := pack.argtype }
  return record

/-- The choice `push` and `push_unlocked` make between the two encoders. -/
def encodeArgs (record : Record) (tailroom : UInt32) (args : List Arg) (scratch : Argpack) :
    Option Record :=
  match scratch.populate args with
  | (_, 0) => record.setArgs tailroom args
  | (pack, _) => record.setPackedArgs tailroom pack

/-- `record::special(type, arg1, arg2)`: the three argument words are stored
over the front of the argument memory. -/
def makeSpecial (record : Record) (type : UInt32) (arg1 arg2 : UInt64) : Record :=
  { record with
    area := none
    sect := 0xfff
    argtype := BitVec.ofNat 64 type.toNat
    argval := leBytes 8 0 ++ leBytes 8 arg1.toNat ++ leBytes 8 arg2.toNat ++
      record.argval.drop 24 }

/-- `record::special()`. -/
def special (record : Record) : Bool := record.area.isNone && record.sect == 0xfff

/-- The word `ack` stores and `acked` looks for. -/
def ackWord : Nat := 0x7e7f

def ack (record : Record) : Record :=
  { record with argval := leBytes 8 ackWord ++ record.argval.drop 8 }

def acked (record : Record) : Bool := leValue (readAt record.argval 0 8) == ackWord

theorem makeSpecial_special (record : Record) (type : UInt32) (arg1 arg2 : UInt64) :
    (record.makeSpecial type arg1 arg2).special = true := by
  simp only [special, makeSpecial, Option.isNone_none, beq_self_eq_true, Bool.and_self]

theorem makeSpecial_acked (record : Record) (type : UInt32) (arg1 arg2 : UInt64) :
    (record.makeSpecial type arg1 arg2).acked = false := by
  have word : readAt (record.makeSpecial type arg1 arg2).argval 0 8 = leBytes 8 0 := by
    simp only [makeSpecial, readAt, List.drop_zero, List.append_assoc]
    exact List.take_left' (leBytes_length 8 0)
  rw [acked, word]
  decide

end Record

end Hogl
