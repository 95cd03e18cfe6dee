import Hogl.Record.Record

namespace Hogl.Format

open Hogl.Data

/-! # The text of the arguments

The argument part of `src/format-basic.cc`.  What is appended to the output is
kept as a list of pieces: fixed text, or the values handed to one `printf`
conversion.  `do_xdump` may only load bytes that were stored for its argument;
everything that keeps it from returning is a `XdumpStop`. -/

/-- A string argument as `get_arg_str` finds it. -/
inductive ArgStr where
  | null
  | stored (bytes : List UInt8)
  | global (pointer : UInt64)
deriving Repr, DecidableEq

/-- An argument put into the store of the format library. -/
inductive FmtArg where
  | str (str : ArgStr)
  | value (type : ArgType) (val : UInt64)
  | note (text : List UInt8)
deriving Repr, DecidableEq

inductive Piece where
  | text (bytes : List UInt8)
  | conversion (format : String) (value : List UInt8)
  | str (str : ArgStr)
  | rawdata (len offset : Nat)
  | formatted (format : ArgStr) (args : List FmtArg)
deriving Repr, DecidableEq

inductive XdumpStop where
  | outsideLoad
  | divisionByZero
  | underflow
  | endless
deriving Repr, DecidableEq

/-- A load from the bytes stored for an argument. -/
def load (payload : List UInt8) (offset count : Nat) : Except XdumpStop (List UInt8) :=
  if offset + count ≤ payload.length then .ok (readAt payload offset count) else .error .outsideLoad

/-- One line of `do_hexdump`; `i + offset` is an `unsigned int`. -/
def hexdumpLine (data : List UInt8) (count lineWidth offset : Nat) :
    Except XdumpStop (List Piece) := do
  let bytes ← (List.range lineWidth).mapM fun column =>
    if (column + offset) % 2 ^ 32 < count then do
      let byte ← load data ((column + offset) % 2 ^ 32) 1
      return Piece.conversion "%02x " byte
    else return .text (ascii "   ")
  let chars ← ((List.range lineWidth).takeWhile fun column =>
      (column + offset) % 2 ^ 32 < count).mapM fun column => do
    let byte ← load data ((column + offset) % 2 ^ 32) 1
    return Piece.text (if byte.all isPrint then byte else ascii ".")
  return .conversion "\n\t%03d: " (leBytes 4 offset) :: bytes ++ .text (ascii "  ") :: chars

/-- The line loop of `do_hexdump`, with as many lines as there are bytes. -/
def hexdumpFrom (data : List UInt8) (count lineWidth : Nat) :
    Nat → Nat → Except XdumpStop (List Piece)
  | 0, offset => if offset < count then .error .endless else .ok []
  | lines + 1, offset =>
      if offset < count then do
        let line ← hexdumpLine data count lineWidth offset
        let rest ← hexdumpFrom data count lineWidth lines ((offset + lineWidth) % 2 ^ 32)
        return line ++ rest
      else .ok []

def doHexdump (data : List UInt8) (count : Nat) (format : XdumpFormat) :
    Except XdumpStop (List Piece) :=
  hexdumpFrom data count format.lineWidth.toNat count 0

def printValue (data : List UInt8) (width : Nat) (conversion : String) (index : Nat) :
    Except XdumpStop Piece := do
  let value ← load data (width * index) width
  return .conversion conversion value

/-- The `while` loop of `xdump_single`. -/
def singleLoop (data : List UInt8) (count width : Nat) (conversion : String) (delim : UInt8) :
    Nat → Nat → Except XdumpStop (List Piece)
  | 0, index => if index < count then .error .endless else .ok []
  | rounds + 1, index =>
      if index < count then do
        let value ← printValue data width conversion index
        let rest ← singleLoop data count width conversion delim rounds (index + 1)
        return .text [delim] :: value :: rest
      else .ok []

def xdumpSingle (data : List UInt8) (count width : Nat) (conversion : String)
    (format : XdumpFormat) : Except XdumpStop (List Piece) := do
  let first ← printValue data width conversion 0
  let rest ← singleLoop data count width conversion format.delim count 1
  return first :: rest

/-- The inner loop of `xdump_multi`, with the index it stops at. -/
def lineLoop (data : List UInt8) (count width : Nat) (conversion : String) (delim : UInt8) :
    Nat → Nat → Except XdumpStop (List Piece × Nat)
  | 0, index => .ok ([], index)
  | more + 1, index =>
      if index < count then do
        let value ← printValue data width conversion index
        let (rest, last) ← lineLoop data count width conversion delim more (index + 1)
        return (.text [delim] :: value :: rest, last)
      else .ok ([], index)

/-- The outer loop of `xdump_multi`. -/
def multiLoop (data : List UInt8) (count width : Nat) (conversion : String)
    (format : XdumpFormat) : Nat → Nat → Except XdumpStop (List Piece)
  | 0, index => if index < count then .error .endless else .ok []
  | rounds + 1, index =>
      if index < count then do
        let first ← printValue data width conversion index
        let (line, last) ← lineLoop data count width conversion format.delim
          (format.lineWidth.toNat - 1) (index + 1)
        let rest ← multiLoop data count width conversion format rounds last
        return .text (ascii "\n\t") :: first :: line ++ rest
      else .ok []

def xdumpMulti (data : List UInt8) (count width : Nat) (conversion : String)
    (format : XdumpFormat) : Except XdumpStop (List Piece) :=
  if count = 0 then .ok []
  else if format.lineWidth = 0 then xdumpSingle data count width conversion format
  else multiLoop data count width conversion format count 0

def fltFmt (precision : Nat) : String :=
  match precision with
  | 1 => "%.1f"
  | 2 => "%.2f"
  | 3 => "%.3f"
  | 4 => "%.4f"
  | 5 => "%.5f"
  | _ => "%f"

def dblFmt (precision : Nat) : String :=
  match precision with
  | 1 => "%.1lf"
  | 2 => "%.2lf"
  | 3 => "%.3lf"
  | 4 => "%.4lf"
  | 5 => "%.5lf"
  | _ => "%f"

/-- The conversion `do_xdump` picks for the numeric types. -/
def xdumpConversion (format : XdumpFormat) : Option String :=
  match Char.ofNat format.type.toNat, format.byteWidth.toNat with
  | 'x', 1 => some "%x"
  | 'x', 2 => some "%x"
  | 'x', 4 => some "%lx"
  | 'x', 8 => some "%llx"
  | 'd', 1 => some "%d"
  | 'd', 2 => some "%d"
  | 'd', 4 => some "%ld"
  | 'd', 8 => some "%lld"
  | 'u', 1 => some "%u"
  | 'u', 2 => some "%u"
  | 'u', 4 => some "%lu"
  | 'u', 8 => some "%llu"
  | 'f', 4 => some (fltFmt format.precision.toNat)
  | 'f', 8 => some (dblFmt format.precision.toNat)
  | _, _ => none

/-- `do_xdump` on the bytes stored for its argument.  The subtraction is done
in `size_t`, where a length below the header size wraps. -/
def doXdump (payload : List UInt8) : Except XdumpStop (List Piece) := do
  if payload.length < XdumpFormat.byteSize then .error .underflow
  let header ← load payload 0 XdumpFormat.byteSize
  let format := XdumpFormat.ofBytes header
  let width := format.byteWidth.toNat
  if width = 0 then .error .divisionByZero
  else
    let data := payload.drop XdumpFormat.byteSize
    let count := (payload.length - XdumpFormat.byteSize) / width
    if Char.ofNat format.type.toNat = 'H' then doHexdump data count format
    else
      match xdumpConversion format with
      | some conversion => xdumpMulti data count width conversion format
      | none => .ok [.conversion "xdump conversion type %c not supported" [format.type]]

def doRaw (record : Record) (index : Nat) : Piece :=
  .rawdata (record.dataLen index) (record.dataOffset index)

/-- The value an argument slot holds, read with the width of its type. -/
def argVal (record : Record) (index : Nat) : UInt64 :=
  if (record.getArgType index).is32bit then (record.getArgVal32 index).toUInt64
  else record.getArgVal64 index

def getArgStr (record : Record) (type : ArgType) (index : Nat) : ArgStr :=
  if type = .cstr then
    if record.dataLen index = 0 then .null
    else .stored ((record.argval.drop (record.dataOffset index)).takeWhile (· ≠ 0))
  else .global (argVal record index)

/-- The body of the loop in `output_plain`. -/
def outputArg (record : Record) (index : Nat) : Except XdumpStop (List Piece) := do
  let type := record.getArgType index
  let val := argVal record index
  let space := if 0 < index then [Piece.text (ascii " ")] else []
  let pieces ← match type with
    | .gstr | .cstr => .ok [.str (getArgStr record type index)]
    | .pointer => .ok [.conversion "%p" (leBytes 8 val.toNat)]
    | .int32 => .ok [.conversion "%ld" (leBytes 4 val.toNat)]
    | .uint32 => .ok [.conversion "%lu" (leBytes 4 val.toNat)]
    | .int64 => .ok [.conversion "%lld" (leBytes 8 val.toNat)]
    | .uint64 => .ok [.conversion "%llu" (leBytes 8 val.toNat)]
    | .double => .ok [.conversion "%lf" (leBytes 8 val.toNat)]
    | .xdump => doXdump (record.getArgData index)
    | .raw => .ok [doRaw record index]
    | .none | .unassigned _ => .ok [.conversion "%lu" (leBytes 8 val.toNat)]
  return space ++ pieces

/-- The arguments before the first `NONE`, from `first` on. -/
def argsFrom (record : Record) (first : Nat) : List Nat :=
  (List.range' first (Record.nargs - first)).takeWhile fun index => record.getArgType index ≠ .none

def outputPlain (record : Record) : Except XdumpStop (List Piece) := do
  let pieces ← (argsFrom record 0).mapM (outputArg record)
  return pieces.flatten ++ [.text (ascii "\n")]

def fmtArg (record : Record) (index : Nat) : FmtArg :=
  let type := record.getArgType index
  match type with
  | .cstr | .gstr => .str (getArgStr record type index)
  | .xdump => .note (ascii "xdump not supported with format strings")
  | .raw => .note (ascii "rawdata data not supported with format strings")
  | _ => .value type (argVal record index)

def outputFmt (record : Record) : List Piece :=
  [.formatted (getArgStr record (record.getArgType 0) 0) ((argsFrom record 1).map (fmtArg record)),
    .text (ascii "\n")]

def outputRaw (record : Record) : List Piece := [doRaw record 0, .text (ascii "\n")]

inductive OutputKind where
  | raw
  | fmt
  | plain
deriving Repr, DecidableEq

/-- The switch at the end of `format_basic::process`. -/
def outputKind (first second : ArgType) : OutputKind :=
  match first with
  | .raw => .raw
  | .cstr | .gstr =>
      if second ≠ .none ∧ second ≠ .xdump ∧ second ≠ .raw then .fmt else .plain
  | _ => .plain

/-- The arguments as `format_basic::process` prints them behind the header. -/
def processArgs (record : Record) : Except XdumpStop (List Piece) :=
  match outputKind (record.getArgType 0) (record.getArgType 1) with
  | .raw => .ok (outputRaw record)
  | .fmt => .ok (outputFmt record)
  | .plain => outputPlain record

/-- The arguments of `positions` that `do_xdump` is called for; a call that
does not return is the last one. -/
def xdumpCallsIn (record : Record) : List Nat → List Nat
  | [] => []
  | index :: rest =>
      if record.getArgType index = .xdump then
        match doXdump (record.getArgData index) with
        | .ok _ => index :: xdumpCallsIn record rest
        | .error _ => [index]
      else xdumpCallsIn record rest

def xdumpCalls (record : Record) : List Nat :=
  match outputKind (record.getArgType 0) (record.getArgType 1) with
  | .plain => xdumpCallsIn record (argsFrom record 0)
  | _ => []

end Hogl.Format
