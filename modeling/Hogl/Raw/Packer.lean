import Hogl.Record.Record

namespace Hogl

open Hogl.Data

/-! # The raw format

`src/format-raw.cc` on a little-endian 64-bit machine.  Global strings are
looked up by address: `strings pointer` is the C string that stands there. -/

/-- `format::data`: what a format handler gets for one record. -/
structure FormatData where
  ringName : List UInt8
  record : Record
deriving Repr, DecidableEq

namespace FormatData

def areaName (data : FormatData) : List UInt8 :=
  match data.record.area with
  | some area => area.name
  | none => ascii "INVALID"

def sectName (data : FormatData) : List UInt8 :=
  match data.record.area with
  | some area => area.sectionName data.record.sect.toNat
  | none => ascii "INVALID"

end FormatData

namespace Raw

/-- `raw_packer::add_blob` with a length field of `width` bytes. -/
def addBlob (width : Nat) (data : List UInt8) (len : Nat) : List UInt8 :=
  let n := min len (2 ^ (8 * width) - 1)
  leBytes width n ++ data.take n

def addStr (width : Nat) (str : List UInt8) : List UInt8 := addBlob width str str.length

/-- What the packer emits for the argument at `index`. -/
def addArg (strings : UInt64 → List UInt8) (record : Record) (index : Nat) : List UInt8 :=
  match record.getArgType index with
  | .none => []
  | .xdump | .raw => addBlob 4 (record.getArgData index) (record.dataLen index)
  | .cstr => addBlob 2 (record.getArgData index) (record.dataLen index)
  | .gstr => addStr 2 (strings (record.getArgVal64 index))
  | .int32 | .uint32 => leBytes 4 (record.getArgVal32 index).toNat
  | _ => leBytes 8 (record.getArgVal64 index).toNat

/-- The argument loop, which returns at the first `NONE`. -/
def addArgsFrom (strings : UInt64 → List UInt8) (record : Record) : Nat → Nat → List UInt8
  | 0, _ => []
  | count + 1, index =>
      if record.getArgType index = .none then []
      else addArg strings record index ++ addArgsFrom strings record count (index + 1)

def addArgs (strings : UInt64 → List UInt8) (record : Record) : List UInt8 :=
  leBytes 8 record.argtype.toNat ++ addArgsFrom strings record Record.nargs 0

/-- `raw_packer::pack`, the output of `format_raw::process`. -/
def pack (strings : UInt64 → List UInt8) (data : FormatData) : List UInt8 :=
  leBytes 8 data.record.timestamp.toNat ++ leBytes 8 data.record.seqnum.toNat ++
    addStr 1 data.ringName ++ addStr 1 data.areaName ++ addStr 1 data.sectName ++
    addArgs strings data.record

end Raw

end Hogl
