import Hogl.Data.Bytes
import Hogl.Data.Nibbles

namespace Hogl

open Hogl.Data

/-! # Record arguments

`include/hogl/detail/args.hpp` on a 64-bit build.  An argument that points at
a string, a data block or an `arg_xdump` carries the bytes it points at; a
null string is an empty one, since only its zero length is ever used. -/

/-- The bytes of an ASCII literal. -/
def ascii (text : String) : List UInt8 := text.toList.map fun char => UInt8.ofNat char.toNat

/-- `isprint` in the C locale. -/
def isPrint (byte : UInt8) : Bool := 0x20 ≤ byte && byte ≤ 0x7e

/-- `arg::type`, with the nibbles that no constructor of `arg` produces. -/
inductive ArgType where
  | none | uint32 | int32 | uint64 | int64 | pointer | double | cstr | gstr | xdump | raw
  | unassigned (code : BitVec 4)
deriving Repr, DecidableEq

namespace ArgType

def code : ArgType → BitVec 4
  | .none => 0
  | .uint32 => 1
  | .int32 => 2
  | .uint64 => 3
  | .int64 => 4
  | .pointer => 5
  | .double => 6
  | .cstr => 7
  | .gstr => 8
  | .xdump => 9
  | .raw => 10
  | .unassigned code => code

def ofNibble (nibble : BitVec 4) : ArgType :=
  match nibble.toNat with
  | 0 => .none
  | 1 => .uint32
  | 2 => .int32
  | 3 => .uint64
  | 4 => .int64
  | 5 => .pointer
  | 6 => .double
  | 7 => .cstr
  | 8 => .gstr
  | 9 => .xdump
  | 10 => .raw
  | _ => .unassigned nibble

def is32bit (type : ArgType) : Bool := type == .uint32 || type == .int32

def isSimple (type : ArgType) : Bool := type != .cstr && type != .xdump && type != .raw

end ArgType

/-- `arg_xdump::format`: four bytes, the second one shared by two bit fields. -/
structure XdumpFormat where
  type : UInt8
  byteWidth : BitVec 4
  precision : BitVec 4
  lineWidth : UInt8
  delim : UInt8
deriving Repr, DecidableEq

namespace XdumpFormat

/-- `sizeof(arg_xdump::format)`. -/
def byteSize : Nat := 4

def bytes (format : XdumpFormat) : List UInt8 :=
  [format.type, UInt8.ofNat (format.byteWidth.toNat + 16 * format.precision.toNat),
    format.lineWidth, format.delim]

def ofBytes (bytes : List UInt8) : XdumpFormat :=
  let fields := (bytes.getD 1 0).toNat
  { type := bytes.getD 0 0
    byteWidth := BitVec.ofNat 4 fields
    precision := BitVec.ofNat 4 (fields / 16)
    lineWidth := bytes.getD 2 0
    delim := bytes.getD 3 0 }

@[simp] theorem bytes_length (format : XdumpFormat) : format.bytes.length = byteSize := rfl

theorem ofBytes_bytes (format : XdumpFormat) (rest : List UInt8) :
    ofBytes (format.bytes ++ rest) = format := by
  obtain ⟨type, byteWidth, precision, lineWidth, delim⟩ := format
  have widthBound := byteWidth.isLt
  have precisionBound := precision.isLt
  have fields : (UInt8.ofNat (byteWidth.toNat + 16 * precision.toNat)).toNat =
      byteWidth.toNat + 16 * precision.toNat := by
    rw [UInt8.toNat_ofNat']
    omega
  have width : BitVec.ofNat 4 (byteWidth.toNat + 16 * precision.toNat) = byteWidth := by
    apply BitVec.eq_of_toNat_eq
    rw [BitVec.toNat_ofNat]
    omega
  have digits : BitVec.ofNat 4 ((byteWidth.toNat + 16 * precision.toNat) / 16) = precision := by
    apply BitVec.eq_of_toNat_eq
    rw [BitVec.toNat_ofNat]
    omega
  simp only [ofBytes, bytes, List.cons_append, List.getD_cons_zero, List.getD_cons_succ, fields,
    width, digits]

end XdumpFormat

/-- The simple argument types, whose value is kept in the record itself. -/
inductive ValueType where
  | uint32 | int32 | uint64 | int64 | pointer | double | gstr
deriving Repr, DecidableEq

def ValueType.argType : ValueType → ArgType
  | .uint32 => .uint32
  | .int32 => .int32
  | .uint64 => .uint64
  | .int64 => .int64
  | .pointer => .pointer
  | .double => .double
  | .gstr => .gstr

inductive Arg where
  | none
  | value (type : ValueType) (val : UInt64)
  | cstr (str : List UInt8)
  | raw (data : List UInt8)
  | xdump (format : XdumpFormat) (data : List UInt8)
deriving Repr, DecidableEq

namespace Arg

def type : Arg → ArgType
  | .none => .none
  | .value type _ => type.argType
  | .cstr _ => .cstr
  | .raw _ => .raw
  | .xdump _ _ => .xdump

/-- The bytes behind the pointer of a data argument. -/
def data : Arg → List UInt8
  | .cstr str => str
  | .raw data => data
  | .xdump _ data => data
  | _ => []

/-- The length field of the argument, or of the `arg_xdump` it points at. -/
def len (arg : Arg) : UInt32 := UInt32.ofNat arg.data.length

/-- The lengths the callers of `post` may pass. -/
def Bounded (arg : Arg) : Prop := arg.data.length < 2 ^ 32 - 4

theorem len_toNat {arg : Arg} (bounded : arg.Bounded) : arg.len.toNat = arg.data.length := by
  rw [len, UInt32.toNat_ofNat']
  exact Nat.mod_eq_of_lt (Nat.lt_of_lt_of_le bounded (by decide))

theorem ofNibble_type_code (arg : Arg) : ArgType.ofNibble arg.type.code = arg.type := by
  cases arg with
  | value type val => cases type <;> rfl
  | none | cstr | raw | xdump => rfl

theorem type_code_eq_zero_iff (arg : Arg) : arg.type.code = 0 ↔ arg = .none := by
  cases arg with
  | value type val => cases type <;> simp [type, ValueType.argType, ArgType.code]
  | none | cstr | raw | xdump => simp [type, ArgType.code]

end Arg

end Hogl
