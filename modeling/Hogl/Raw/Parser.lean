import Hogl.Raw.Packer

namespace Hogl

open Hogl.Data

/-! # The raw parser

`tools/raw-parser.cc` and its header.  `input` is what the reader below still
delivers; a read that hits its end copies what is left and fails.  The record
buffer is the header fields and `record.argval`, the name buffers are byte
lists, and a store outside any of them is `none`. -/

/-- A global string is read back as an ordinary one. -/
def Record.remapGlobal (record : Record) (index : Nat) : Record :=
  if record.getArgType index = .gstr then (record.clearArgType index).setArgType index .cstr
  else record

namespace Raw

inductive Version where
  | v1
  | v1_1
deriving Repr, DecidableEq

structure Parser where
  input : List UInt8
  failed : Bool
  /-- The text collected in `_error`; `reset` does not empty it. -/
  error : String
  record : Record
  ringName : List UInt8
  areaName : List UInt8
  sectionName : List UInt8

/-- `raw_area::MAX_NAME_LEN`. -/
def maxNameLen : Nat := 256

/-- The C string at the start of a buffer. -/
def cstring (buffer : List UInt8) : List UInt8 := buffer.takeWhile (· ≠ 0)

/-- `valid_name` on a null-terminated buffer. -/
def validName (buffer : List UInt8) : Bool :=
  let name := cstring buffer
  name.all isPrint && 2 ≤ name.length && name.length ≤ 128

namespace Parser

def reset (parser : Parser) : Parser := { parser with failed := false }

def fail (parser : Parser) (message stage : String) : Parser :=
  { parser with failed := true, error := parser.error ++ message ++ stage }

/-- `_in.read`: the bytes copied, and whether there were enough of them. -/
def read (parser : Parser) (count : Nat) : List UInt8 × Bool × Parser :=
  (parser.input.take count, decide (count ≤ parser.input.length),
    { parser with input := parser.input.drop count })

def readUint (parser : Parser) (width : Nat) (stage : String) : Nat × Parser :=
  if parser.failed then (0, parser)
  else
    let (bytes, complete, parser) := parser.read width
    (leValue bytes,
      if complete then parser else parser.fail "input: failed to read uint @ " stage)

/-- Read a length and that many bytes to `offset` of `memory`. -/
def readBlob (parser : Parser) (width : Nat) (memory : List UInt8) (offset : Nat) (stage : String) :
    Option (Nat × List UInt8 × Parser) :=
  if parser.failed then some (0, memory, parser)
  else
    let (len, parser) := parser.readUint width stage
    if parser.failed ∨ len = 0 then some (0, memory, parser)
    else do
      let (bytes, complete, parser) := parser.read len
      let memory ← writeAt memory offset bytes
      if complete then return (len, memory, parser)
      else return (0, memory, parser.fail "input: failed to read blob @ " stage)

/-- Like `readBlob`, with a terminator; the length includes it. -/
def readStr (parser : Parser) (width : Nat) (memory : List UInt8) (offset : Nat) (stage : String) :
    Option (Nat × List UInt8 × Parser) :=
  if parser.failed then some (0, memory, parser)
  else do
    let (len, memory, parser) ← parser.readBlob width memory offset stage
    if parser.failed then return (0, memory, parser)
    let memory ← writeAt memory (offset + len) [0]
    return (len + 1, memory, parser)

def readName (parser : Parser) (buffer : List UInt8) (stage : String) :
    Option (List UInt8 × Parser) := do
  let (_, buffer, parser) ← parser.readStr 1 buffer 0 stage
  if parser.failed then return (buffer, parser)
  if validName buffer then return (buffer, parser)
  return (buffer, parser.fail "format: failed to validate name @" stage)

/-- The length field of `XDUMP` and `RAW` arguments. -/
def blobWidth : Version → Nat
  | .v1 => 2
  | .v1_1 => 4

/-- The body of the loop in `read_args`, for an argument that is set. -/
def readArg (version : Version) (parser : Parser) (index offset : Nat) :
    Option (Nat × Parser) :=
  match parser.record.getArgType index with
  | .cstr | .gstr => do
      let record := parser.record.remapGlobal index
      let (n, argval, parser) ← parser.readStr 2 record.argval offset "cstr-arg"
      let record ← { record with argval }.setArgData index (UInt32.ofNat offset)
        (UInt32.ofNat n - 1)
      return (offset + n, { parser with record })
  | .xdump | .raw => do
      let (n, argval, parser) ←
        parser.readBlob (blobWidth version) parser.record.argval offset "raw-arg"
      let record ← { parser.record with argval }.setArgData index (UInt32.ofNat offset)
        (UInt32.ofNat n)
      return (offset + n, { parser with record })
  | .int32 | .uint32 => do
      let (val, parser) := parser.readUint 4 "uint32-arg"
      let record ← parser.record.setArgVal32 index (UInt32.ofNat val)
      return (offset, { parser with record })
  | _ => do
      let (val, parser) := parser.readUint 8 "uint64-arg"
      let record ← parser.record.setArgVal64 index (UInt64.ofNat val)
      return (offset, { parser with record })

def readArgsFrom (version : Version) : Nat → Nat → Nat → Parser → Option Parser
  | 0, _, _, parser => some parser
  | count + 1, index, offset, parser =>
      if parser.failed ∨ parser.record.getArgType index = .none then some parser
      else do
        let (offset, parser) ← parser.readArg version index offset
        readArgsFrom version count (index + 1) offset parser

def readArgs (version : Version) (parser : Parser) : Option Parser :=
  if parser.failed then some parser
  else
    let (argtype, parser) := parser.readUint 8 "argtype"
    readArgsFrom version Record.nargs 0 Record.argvalSize
      { parser with record.argtype := BitVec.ofNat 64 argtype }

/-- What the record and the ring name of the parser look like from outside. -/
def formatData (parser : Parser) : FormatData :=
  { ringName := cstring parser.ringName
    record := { parser.record with
      area := some { name := cstring parser.areaName, sections := [cstring parser.sectionName] } } }

/-- What `next` reads between the timestamp and the arguments. -/
def readHeader (parser : Parser) : Option Parser := do
  let (seqnum, parser) := parser.readUint 8 "seqnum"
  let parser := { parser with record.seqnum := BitVec.ofNat 52 seqnum }
  let (ringName, parser) ← parser.readName parser.ringName "ring-name"
  let parser := { parser with ringName }
  let (areaName, parser) ← parser.readName parser.areaName "area-name"
  let parser := { parser with areaName }
  let (sectionName, parser) ← parser.readName parser.sectionName "section-name"
  return { parser with sectionName }

/-- `record::clear` on the record of the parser. -/
def cleared (parser : Parser) : Parser :=
  { parser with
    record := { parser.record with timestamp := 0, seqnum := 0, sect := 0, argtype := 0 } }

/-- `raw_parser::next`. -/
def next (version : Version) (parser : Parser) : Option (Option FormatData × Parser) := do
  let (timestamp, parser) := parser.cleared.readUint 8 "timestamp"
  let parser := { parser with record.timestamp := UInt64.ofNat timestamp }
  if parser.failed then return (none, parser.reset)
  let parser ← parser.readHeader
  let parser ← parser.readArgs version
  if parser.failed then return (none, parser)
  return (some parser.formatData, parser)

/-- Call `next` until it returns null, at most `fuel` times. -/
def readAll (version : Version) : Nat → Parser → Option (List FormatData × Parser)
  | 0, _ => none
  | fuel + 1, parser => do
      let (result, parser) ← parser.next version
      match result with
      | none => return ([], parser)
      | some data =>
          let (rest, parser) ← readAll version fuel parser
          return (data :: rest, parser)

/-- The buffers of a parser built with `max_record_size`. -/
structure Ready (parser : Parser) (maxRecordSize : Nat) : Prop where
  argval : parser.record.argval.length = maxRecordSize - Record.headerSize
  ringName : parser.ringName.length = maxNameLen
  areaName : parser.areaName.length = maxNameLen
  sectionName : parser.sectionName.length = maxNameLen

end Parser

end Raw

end Hogl
