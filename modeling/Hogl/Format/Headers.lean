import Hogl.Format.Tscache
import Hogl.Record.Record

namespace Hogl.Format

open Hogl.Data

/-! # Record headers

The header functions of `src/format-basic.cc`, in both timestamp builds.
`localtime` stands for `localtime_r`, and the conversions of `printf` print
plain strings and decimals.  The stack array of a fast header holds arbitrary
bytes at first; a store outside of it has no result.  Names are C strings,
given without their terminator. -/

/-- `struct tm`; the fields are printed as unsigned numbers. -/
structure Tm where
  mon : UInt32
  mday : UInt32
  year : UInt32
  hour : UInt32
  min : UInt32
  sec : UInt32
deriving Repr, DecidableEq

/-- A piece of a `printf` format together with its argument. -/
inductive Printed where
  | text (literal : String)
  | str (value : List UInt8)
  /-- `%lu` and `%llu`. -/
  | decimal (value : Nat)
  /-- `%0Nu`. -/
  | zeros (width value : Nat)

def Printed.bytes : Printed → List UInt8
  | .text literal => ascii literal
  | .str value => value
  | .decimal value => spell 10 value
  | .zeros width value => padded width value

def printf (pieces : List Printed) : List UInt8 := pieces.flatMap Printed.bytes

/-- `format_basic::record_data`, as far as the headers read it. -/
structure RecordData where
  timestamp : Timestamp
  seqnum : BitVec 52
  ringName : List UInt8
  areaName : List UInt8
  sectName : List UInt8

/-- The names that `format_basic::process` looks up. -/
def RecordData.prepare (record : Record) (ringName : List UInt8) : RecordData where
  timestamp := ⟨record.timestamp⟩
  seqnum := record.seqnum
  ringName
  areaName := match record.area with
    | some area => area.name
    | none => ascii "INVALID"
  sectName := match record.area with
    | some area => area.sectionName record.sect.toNat
    | none => ascii "INVALID"

namespace Fields

def timespec : UInt32 := (1 : UInt32) <<< 0
def timestamp : UInt32 := (1 : UInt32) <<< 1
def timedelta : UInt32 := (1 : UInt32) <<< 2
def ring : UInt32 := (1 : UInt32) <<< 3
def seqnum : UInt32 := (1 : UInt32) <<< 4
def area : UInt32 := (1 : UInt32) <<< 5
def sect : UInt32 := (1 : UInt32) <<< 6
def default : UInt32 := timestamp ||| ring ||| seqnum ||| area ||| sect
def fast0 : UInt32 := timespec ||| ring ||| seqnum ||| area ||| sect
def fast1 : UInt32 := timespec ||| timedelta ||| ring ||| seqnum ||| area ||| sect

end Fields

structure FormatBasic where
  fields : UInt32
  lastTimestamp : Timestamp
  tscache : Tscache
deriving DecidableEq

/-- `strlen` in an `unsigned int`. -/
def nameLen (name : List UInt8) : Nat := name.length % 2 ^ 32

namespace FormatBasic

def create (fields : UInt32) : FormatBasic :=
  { fields, lastTimestamp := ⟨0⟩, tscache := .create }

section Headers

variable (localtime : Int64 → Tm) (format : TimestampFormat) (stack : Nat → UInt8)
  (state : FormatBasic) (data : RecordData)

/-- The date and time of the record. -/
def dateTime : List Printed :=
  let ts := data.timestamp.toTimespec format
  let tm := localtime ts.sec
  [.zeros 2 (tm.mon + 1).toNat, .zeros 2 tm.mday.toNat, .zeros 4 (1900 + tm.year).toNat, .text " ",
    .zeros 2 tm.hour.toNat, .text ":", .zeros 2 tm.min.toNat, .text ":", .zeros 2 tm.sec.toNat,
    .text ".", .zeros 9 ts.nsec.toUInt64.toNat, .text " "]

/-- The time since the last record, and none before the first one. -/
def delta : Timestamp :=
  if state.lastTimestamp.equal (Timestamp.fromNsec 0 format) then Timestamp.fromNsec 0 format
  else Timestamp.fromNsec (data.timestamp.toNsec format - state.lastTimestamp.toNsec format) format

def defaultHeader : List UInt8 × FormatBasic :=
  (printf (dateTime localtime format data ++ [.str data.ringName, .text ":",
    .decimal data.seqnum.toNat, .text " ", .str data.areaName, .text ":", .str data.sectName,
    .text " "]), state)

/-- An array of the stack frame. -/
def stackArray (size : Nat) : List UInt8 := (List.range size).map stack

/-- The names and the number behind the time, stored one after the other. -/
def putNames (cursor : List UInt8 × Nat) : Option (List UInt8 × Nat) := do
  let cursor ← put cursor (data.ringName.take (nameLen data.ringName))
  let cursor ← put cursor (ascii ":")
  let cursor ← u64tod (UInt64.ofNat data.seqnum.toNat) cursor.1 cursor.2 0 0x30
  let cursor ← put cursor (ascii " ")
  let cursor ← put cursor (data.areaName.take (nameLen data.areaName))
  let cursor ← put cursor (ascii ":")
  let cursor ← put cursor (data.sectName.take (nameLen data.sectName))
  put cursor (ascii " ")

def fast0Header : Option (List UInt8 × FormatBasic) := do
  let hlen := (nameLen data.areaName + nameLen data.sectName + nameLen data.ringName + 6 + 3 * 20) %
    2 ^ 32
  let tscache ← state.tscache.update format data.timestamp
  let cursor ← put (stackArray stack hlen, 0) (tscache.str.take Tscache.tsLen)
  let cursor ← put cursor (ascii " ")
  let cursor ← putNames data cursor
  return (cursor.1.take cursor.2, { state with tscache })

def fast1Header : Option (List UInt8 × FormatBasic) := do
  let delta := state.delta format data
  let hlen := (nameLen data.areaName + nameLen data.sectName + nameLen data.ringName + 9 + 4 * 20) %
    2 ^ 32
  let tscache ← state.tscache.update format data.timestamp
  let cursor ← put (stackArray stack hlen, 0) (tscache.str.take Tscache.tsLen)
  let cursor ← put cursor (ascii " ")
  let cursor ← put cursor (ascii "(")
  let cursor ← u64tod (delta.toNsec format) cursor.1 cursor.2 0 0x30
  let cursor ← put cursor (ascii ")")
  let cursor ← put cursor (ascii " ")
  let cursor ← putNames data cursor
  return (cursor.1.take cursor.2, { state with tscache, lastTimestamp := data.timestamp })

def flexiHeader : Option (List UInt8 × FormatBasic) := do
  let (time, state) ←
    if state.fields &&& Fields.timespec ≠ 0 then do
      let tscache ← state.tscache.update format data.timestamp
      some (tscache.str.take Tscache.tsLen ++ ascii " ", { state with tscache })
    else some ([], state)
  let date :=
    if state.fields &&& Fields.timestamp ≠ 0 then printf (dateTime localtime format data) else []
  let (elapsed, state) :=
    if state.fields &&& Fields.timedelta ≠ 0 then
      (printf [.text "(", .decimal ((state.delta format data).toNsec format).toNat, .text ") "],
        { state with lastTimestamp := data.timestamp })
    else ([], state)
  let ring :=
    if state.fields &&& (Fields.ring ||| Fields.seqnum) = Fields.ring ||| Fields.seqnum then
      printf [.str data.ringName, .text ":", .decimal data.seqnum.toNat, .text " "]
    else if state.fields &&& (Fields.ring ||| Fields.seqnum) = Fields.ring then
      printf [.str data.ringName, .text " "]
    else if state.fields &&& (Fields.ring ||| Fields.seqnum) = Fields.seqnum then
      printf [.decimal data.seqnum.toNat, .text " "]
    else []
  let area :=
    if state.fields &&& (Fields.area ||| Fields.sect) = Fields.area ||| Fields.sect then
      printf [.str data.areaName, .text ":", .str data.sectName, .text " "]
    else if state.fields &&& (Fields.area ||| Fields.sect) = Fields.area then
      printf [.str data.areaName, .text " "]
    else if state.fields &&& (Fields.area ||| Fields.sect) = Fields.sect then
      printf [.str data.sectName, .text " "]
    else []
  return (time ++ date ++ elapsed ++ ring ++ area, state)

/-- The dispatch in `format_basic::process`. -/
def header : Option (List UInt8 × FormatBasic) :=
  if state.fields = Fields.default then some (state.defaultHeader localtime format data)
  else if state.fields = Fields.fast0 then state.fast0Header format stack data
  else if state.fields = Fields.fast1 then state.fast1Header format stack data
  else state.flexiHeader localtime format data

end Headers

/-- The state behind the headers of a list of records. -/
def afterHeaders (localtime : Int64 → Tm) (format : TimestampFormat) (state : FormatBasic)
    (history : List ((Nat → UInt8) × RecordData)) : Option FormatBasic :=
  history.foldlM (fun state call => (state.header localtime format call.1 call.2).map Prod.snd) state

end FormatBasic

/-! ## The text of the fast headers -/

/-- What a header shows behind the time. -/
def namesText (ringName areaName sectName : List UInt8) (seqnum : Nat) : List UInt8 :=
  ringName ++ (ascii ":" ++ (spell 10 seqnum ++ (ascii " " ++ (areaName ++ (ascii ":" ++
    (sectName ++ ascii " "))))))

/-- The names as far as their computed lengths reach. -/
def RecordData.cutNames (data : RecordData) : List UInt8 :=
  namesText (data.ringName.take (nameLen data.ringName))
    (data.areaName.take (nameLen data.areaName)) (data.sectName.take (nameLen data.sectName))
    data.seqnum.toNat

def RecordData.names (data : RecordData) : List UInt8 :=
  namesText data.ringName data.areaName data.sectName data.seqnum.toNat

def RecordData.namesLength (data : RecordData) : Nat :=
  data.areaName.length + data.sectName.length + data.ringName.length

/-- The size of a header's array, with `room` for what is not a name. -/
def RecordData.hlen (data : RecordData) (room : Nat) : Nat :=
  (nameLen data.areaName + nameLen data.sectName + nameLen data.ringName + room) % 2 ^ 32

theorem seqnum_toNat (data : RecordData) :
    (UInt64.ofNat data.seqnum.toNat).toNat = data.seqnum.toNat := by
  have bound := data.seqnum.isLt
  rw [UInt64.toNat_ofNat']
  omega

@[simp] theorem namesText_length (ringName areaName sectName : List UInt8) (seqnum : Nat) :
    (namesText ringName areaName sectName seqnum).length =
      ringName.length + areaName.length + sectName.length + (spell 10 seqnum).length + 4 := by
  have colon : (ascii ":").length = 1 := rfl
  have blank : (ascii " ").length = 1 := rfl
  simp only [namesText, List.length_append, colon, blank]
  omega

theorem cut_length (name : List UInt8) : (name.take (nameLen name)).length = nameLen name := by
  rw [List.length_take, nameLen]
  exact Nat.min_eq_left (Nat.mod_le _ _)

theorem cut_whole {name : List UInt8} (short : name.length < 2 ^ 32) :
    name.take (nameLen name) = name := by
  rw [nameLen, Nat.mod_eq_of_lt short, List.take_length]

/-- The array holds a header with whole names exactly when its size was
computed without a carry out of 32 bits. -/
theorem RecordData.cutNames_fit_iff (data : RecordData) {front : List UInt8} {room : Nat}
    (wide : front.length + 20 ≤ room) (small : room < 2 ^ 32) :
    ((front ++ data.cutNames).length ≤ data.hlen room ∧ front ++ data.cutNames = front ++ data.names) ↔
      data.namesLength + room < 2 ^ 32 := by
  have digits : (spell 10 data.seqnum.toNat).length ≤ 16 :=
    spell_length_le (by decide) (Nat.lt_trans data.seqnum.isLt (by decide))
  constructor
  · intro ⟨fits, same⟩
    have lengths := congrArg List.length (List.append_cancel_left same)
    rw [cutNames, names, namesText_length, namesText_length, cut_length, cut_length, cut_length]
      at lengths
    rw [List.length_append, cutNames, namesText_length, cut_length, cut_length, cut_length, hlen]
      at fits
    rw [namesLength]
    by_contra large
    have carry : ∀ size, 2 ^ 32 ≤ size → size % 2 ^ 32 ≤ size - 2 ^ 32 := by
      intro size
      omega
    have ringCut := Nat.mod_le data.ringName.length (2 ^ 32)
    have areaCut := Nat.mod_le data.areaName.length (2 ^ 32)
    have sectCut := Nat.mod_le data.sectName.length (2 ^ 32)
    have lost := carry (nameLen data.areaName + nameLen data.sectName + nameLen data.ringName + room)
    simp only [nameLen] at *
    omega
  · intro fits
    rw [namesLength] at fits
    have ringLen : nameLen data.ringName = data.ringName.length := Nat.mod_eq_of_lt (by omega)
    have areaLen : nameLen data.areaName = data.areaName.length := Nat.mod_eq_of_lt (by omega)
    have sectLen : nameLen data.sectName = data.sectName.length := Nat.mod_eq_of_lt (by omega)
    have whole : data.cutNames = data.names := by
      rw [cutNames, names, cut_whole (by omega), cut_whole (by omega), cut_whole (by omega)]
    refine ⟨?_, by rw [whole]⟩
    rw [List.length_append, whole, names, namesText_length, hlen, ringLen, areaLen, sectLen,
      Nat.mod_eq_of_lt (by omega)]
    omega

/-- A header with the names it has room for shows what the whole names would. -/
theorem RecordData.agrees_iff {α : Type} (data : RecordData) {front : List UInt8} {room : Nat}
    (result : α) (wide : front.length + 20 ≤ room) (small : room < 2 ^ 32) :
    (∃ bytes after, (if (front ++ data.cutNames).length ≤ data.hlen room then
        some (front ++ data.cutNames, result) else none) = some (bytes, after) ∧
      some (front ++ data.names, result) = some (bytes, after)) ↔
        data.namesLength + room < 2 ^ 32 := by
  rw [← data.cutNames_fit_iff wide small]
  constructor
  · intro ⟨bytes, after, shown, general⟩
    split at shown
    · rename_i fits
      have same := shown.trans general.symm
      rw [Option.some.injEq, Prod.mk.injEq] at same
      exact ⟨fits, same.1⟩
    · cases shown
  · intro ⟨fits, same⟩
    exact ⟨_, result, if_pos fits, by rw [same]⟩

namespace FormatBasic

theorem putNames_eq (data : RecordData) (cursor : List UInt8 × Nat) :
    putNames data cursor = put cursor data.cutNames := by
  simp only [putNames, u64tod_put, seqnum_toNat, RecordData.cutNames, namesText, ← put_put,
    Option.bind_eq_bind]

section Fast

variable {format : TimestampFormat} {stack : Nat → UInt8} {state : FormatBasic} {data : RecordData}
  {tscache : Tscache}

/-- A header whose text does not fit into its array has no result. -/
theorem fill_array (stack : Nat → UInt8) (size : Nat) (text : List UInt8) (result : FormatBasic) :
    ((put (stackArray stack size, 0) text).bind fun cursor =>
      some (cursor.1.take cursor.2, result)) =
        if text.length ≤ size then some (text, result) else none := by
  have start := put_start (stackArray stack size) text
  have length : (stackArray stack size).length = size := by
    rw [stackArray, List.length_map, List.length_range]
  rw [length] at start
  have mapped : ((put (stackArray stack size, 0) text).bind fun cursor =>
      some (cursor.1.take cursor.2, result)) =
        ((put (stackArray stack size, 0) text).map fun cursor => cursor.1.take cursor.2).map
          fun text => (text, result) := by
    cases put (stackArray stack size, 0) text <;> rfl
  rw [mapped, start]
  split <;> rfl

theorem fast0Header_eq (updated : state.tscache.update format data.timestamp = some tscache) :
    state.fast0Header format stack data =
      let text := tscache.str.take Tscache.tsLen ++ (ascii " " ++ data.cutNames)
      if text.length ≤ data.hlen 66 then some (text, { state with tscache }) else none := by
  dsimp only
  rw [← fill_array stack]
  simp only [fast0Header, updated, Option.bind_eq_bind, Option.bind_some, putNames_eq, ← put_put,
    Option.bind_assoc]
  rfl

theorem fast1Header_eq (updated : state.tscache.update format data.timestamp = some tscache) :
    state.fast1Header format stack data =
      let text := tscache.str.take Tscache.tsLen ++ (ascii " " ++ (ascii "(" ++
        (spell 10 ((state.delta format data).toNsec format).toNat ++ (ascii ")" ++ (ascii " " ++
          data.cutNames)))))
      if text.length ≤ data.hlen 89 then
        some (text, { state with tscache, lastTimestamp := data.timestamp }) else none := by
  dsimp only
  rw [← fill_array stack]
  simp only [fast1Header, updated, Option.bind_eq_bind, Option.bind_some, putNames_eq, u64tod_put,
    ← put_put, Option.bind_assoc]
  rfl

theorem flexiHeader_default (localtime : Int64 → Tm) (fieldsEq : state.fields = Fields.default) :
    state.flexiHeader localtime format data = some (state.defaultHeader localtime format data) := by
  have time : ¬ Fields.default &&& Fields.timespec ≠ 0 := by decide
  have date : Fields.default &&& Fields.timestamp ≠ 0 := by decide
  have elapsed : ¬ Fields.default &&& Fields.timedelta ≠ 0 := by decide
  have ring : Fields.default &&& (Fields.ring ||| Fields.seqnum) = Fields.ring ||| Fields.seqnum := by
    decide
  have area : Fields.default &&& (Fields.area ||| Fields.sect) = Fields.area ||| Fields.sect := by
    decide
  simp only [flexiHeader, fieldsEq, if_neg time, if_pos date, if_neg elapsed, if_pos ring,
    if_pos area, Option.bind_eq_bind, Option.bind_some, defaultHeader]
  simp [printf]

theorem flexiHeader_fast0 (localtime : Int64 → Tm) (fieldsEq : state.fields = Fields.fast0)
    (updated : state.tscache.update format data.timestamp = some tscache) :
    state.flexiHeader localtime format data =
      some (tscache.str.take Tscache.tsLen ++ (ascii " " ++ data.names), { state with tscache }) := by
  have time : Fields.fast0 &&& Fields.timespec ≠ 0 := by decide
  have date : ¬ Fields.fast0 &&& Fields.timestamp ≠ 0 := by decide
  have elapsed : ¬ Fields.fast0 &&& Fields.timedelta ≠ 0 := by decide
  have ring : Fields.fast0 &&& (Fields.ring ||| Fields.seqnum) = Fields.ring ||| Fields.seqnum := by
    decide
  have area : Fields.fast0 &&& (Fields.area ||| Fields.sect) = Fields.area ||| Fields.sect := by
    decide
  simp only [flexiHeader, fieldsEq, updated, if_pos time, if_neg date, if_neg elapsed, if_pos ring,
    if_pos area, Option.bind_eq_bind, Option.bind_some]
  simp [printf, Printed.bytes, RecordData.names, namesText]

theorem flexiHeader_fast1 (localtime : Int64 → Tm) (fieldsEq : state.fields = Fields.fast1)
    (updated : state.tscache.update format data.timestamp = some tscache) :
    state.flexiHeader localtime format data =
      some (tscache.str.take Tscache.tsLen ++ (ascii " " ++ (ascii "(" ++
        (spell 10 ((state.delta format data).toNsec format).toNat ++ (ascii ")" ++ (ascii " " ++
          data.names))))), { state with tscache, lastTimestamp := data.timestamp }) := by
  have time : Fields.fast1 &&& Fields.timespec ≠ 0 := by decide
  have date : ¬ Fields.fast1 &&& Fields.timestamp ≠ 0 := by decide
  have elapsed : Fields.fast1 &&& Fields.timedelta ≠ 0 := by decide
  have ring : Fields.fast1 &&& (Fields.ring ||| Fields.seqnum) = Fields.ring ||| Fields.seqnum := by
    decide
  have area : Fields.fast1 &&& (Fields.area ||| Fields.sect) = Fields.area ||| Fields.sect := by
    decide
  have close : ascii ") " = ascii ")" ++ ascii " " := rfl
  simp only [flexiHeader, fieldsEq, updated, if_pos time, if_neg date, if_pos elapsed, if_pos ring,
    if_pos area, Option.bind_eq_bind, Option.bind_some]
  simp [printf, Printed.bytes, RecordData.names, namesText, close, delta]

end Fast

/-! ## After any records -/

/-- The formatter prints `fields` and its cached timestamp is whole. -/
structure Prints (state : FormatBasic) (fields : UInt32) : Prop where
  fields : state.fields = fields
  whole : state.tscache.str.length = Tscache.tsLen

theorem create_prints (fields : UInt32) : (create fields).Prints fields :=
  ⟨rfl, rfl⟩

variable {localtime : Int64 → Tm} {format : TimestampFormat} {fields : UInt32}
  {state after : FormatBasic} {stack : Nat → UInt8} {data : RecordData} {bytes : List UInt8}

theorem Prints.header (prints : state.Prints fields)
    (fast : fields = Fields.default ∨ fields = Fields.fast0 ∨ fields = Fields.fast1)
    (shown : state.header localtime format stack data = some (bytes, after)) :
    after.Prints fields := by
  obtain ⟨tscache, updated, whole⟩ := Tscache.update_inside prints.whole format data.timestamp
  rw [FormatBasic.header, prints.fields] at shown
  rcases fast with rfl | rfl | rfl
  · rw [if_pos rfl, defaultHeader, Option.some.injEq, Prod.mk.injEq] at shown
    rw [← shown.2]
    exact prints
  · rw [if_neg (by decide), if_pos rfl, fast0Header_eq updated] at shown
    dsimp only at shown
    split at shown
    · rw [Option.some.injEq, Prod.mk.injEq] at shown
      rw [← shown.2]
      exact ⟨prints.fields, whole⟩
    · cases shown
  · rw [if_neg (by decide), if_neg (by decide), if_pos rfl, fast1Header_eq updated] at shown
    dsimp only at shown
    split at shown
    · rw [Option.some.injEq, Prod.mk.injEq] at shown
      rw [← shown.2]
      exact ⟨prints.fields, whole⟩
    · cases shown

theorem Prints.afterHeaders (prints : state.Prints fields)
    (fast : fields = Fields.default ∨ fields = Fields.fast0 ∨ fields = Fields.fast1)
    {history : List ((Nat → UInt8) × RecordData)}
    (reached : state.afterHeaders localtime format history = some after) : after.Prints fields := by
  induction history generalizing state with
  | nil =>
      cases reached
      exact prints
  | cons call history ih =>
      rw [FormatBasic.afterHeaders, List.foldlM_cons, Option.bind_eq_bind, Option.bind_eq_some_iff]
        at reached
      obtain ⟨next, shown, rest⟩ := reached
      rw [Option.map_eq_some_iff] at shown
      obtain ⟨⟨bytes, result⟩, shown, rfl⟩ := shown
      exact ih (prints.header fast shown) rest

theorem Prints.agrees_iff (prints : state.Prints fields) (localtime : Int64 → Tm)
    (format : TimestampFormat)
    (fast : fields = Fields.default ∨ fields = Fields.fast0 ∨ fields = Fields.fast1)
    (stack : Nat → UInt8) (data : RecordData) :
    (∃ bytes after, state.header localtime format stack data = some (bytes, after) ∧
      state.flexiHeader localtime format data = some (bytes, after)) ↔
    (fields = Fields.fast0 → data.namesLength + 66 < 2 ^ 32) ∧
      (fields = Fields.fast1 → data.namesLength + 89 < 2 ^ 32) := by
  obtain ⟨tscache, updated, whole⟩ := Tscache.update_inside prints.whole format data.timestamp
  have time : (tscache.str.take Tscache.tsLen).length = 21 := by
    rw [List.length_take, whole]
    rfl
  rcases fast with rfl | rfl | rfl
  · have general : state.flexiHeader localtime format data = _ :=
      flexiHeader_default localtime prints.fields
    constructor
    · intro _
      exact ⟨fun other => absurd other (by decide), fun other => absurd other (by decide)⟩
    · intro _
      refine ⟨_, _, ?_, general⟩
      rw [FormatBasic.header, if_pos prints.fields]
      rfl
  · rw [FormatBasic.header, prints.fields, if_neg (by decide), if_pos rfl, fast0Header_eq updated,
      flexiHeader_fast0 localtime prints.fields updated]
    have agrees := @RecordData.agrees_iff _ data (tscache.str.take Tscache.tsLen ++ ascii " ") 66
      { state with tscache } (by rw [List.length_append, time]; decide) (by decide)
    simp only [List.append_assoc] at agrees
    rw [agrees]
    constructor
    · intro fits
      exact ⟨fun _ => fits, fun other => absurd other (by decide)⟩
    · intro fits
      exact fits.1 rfl
  · have digits : (spell 10 ((state.delta format data).toNsec format).toNat).length ≤ 20 :=
      spell_length_le (by decide) (Nat.lt_trans (UInt64.toNat_lt _) (by decide))
    rw [FormatBasic.header, prints.fields, if_neg (by decide), if_neg (by decide), if_pos rfl,
      fast1Header_eq updated, flexiHeader_fast1 localtime prints.fields updated]
    have agrees := @RecordData.agrees_iff _ data (tscache.str.take Tscache.tsLen ++ (ascii " " ++
      (ascii "(" ++ (spell 10 ((state.delta format data).toNsec format).toNat ++ (ascii ")" ++
        ascii " "))))) 89 { state with tscache, lastTimestamp := data.timestamp }
        (by
          have blank : (ascii " ").length = 1 := rfl
          have opening : (ascii "(").length = 1 := rfl
          have closing : (ascii ")").length = 1 := rfl
          simp only [List.length_append, time, blank, opening, closing]
          omega) (by decide)
    simp only [List.append_assoc] at agrees
    rw [agrees]
    constructor
    · intro fits
      exact ⟨fun other => absurd other (by decide), fun _ => fits⟩
    · intro fits
      exact fits.2 rfl

/-- After any records the specialised header and the general one agree, in
the text and in the state behind it, exactly as long as the size of the array
is computed without a carry. -/
theorem header_agrees_iff (localtime : Int64 → Tm) (format : TimestampFormat) {fields : UInt32}
    (fast : fields = Fields.default ∨ fields = Fields.fast0 ∨ fields = Fields.fast1)
    {history : List ((Nat → UInt8) × RecordData)} {state : FormatBasic}
    (reached : (create fields).afterHeaders localtime format history = some state)
    (stack : Nat → UInt8) (data : RecordData) :
    (∃ bytes after, state.header localtime format stack data = some (bytes, after) ∧
      state.flexiHeader localtime format data = some (bytes, after)) ↔
    (fields = Fields.fast0 → data.namesLength + 66 < 2 ^ 32) ∧
      (fields = Fields.fast1 → data.namesLength + 89 < 2 ^ 32) :=
  ((create_prints fields).afterHeaders fast reached).agrees_iff localtime format fast stack data

section Records

/-- A clock that shows the epoch. -/
def epoch (_ : Int64) : Tm :=
  { mon := 0, mday := 1, year := 70, hour := 0, min := 0, sec := 0 }

/-- Two records of the ring `R`. -/
def firstData : RecordData :=
  { timestamp := ⟨1000000007⟩, seqnum := 41, ringName := ascii "R", areaName := ascii "A",
    sectName := ascii "INFO" }

def secondData : RecordData :=
  { firstData with timestamp := ⟨3000000009⟩, seqnum := 42 }

def afterFirst : FormatBasic :=
  { fields := Fields.fast1, lastTimestamp := ⟨1000000007⟩,
    tscache := { sec := 1, nsecHi := 0, str := ascii "00000000001.000000007" } }

theorem second_header_agrees :
    (create Fields.fast1).afterHeaders epoch .nanoseconds [(fun _ => 0, firstData)] =
        some afterFirst ∧
      ∃ bytes after, afterFirst.header epoch .nanoseconds (fun _ => 0) secondData =
          some (bytes, after) ∧
        afterFirst.flexiHeader epoch .nanoseconds secondData = some (bytes, after) := by
  have reached : (create Fields.fast1).afterHeaders epoch .nanoseconds [(fun _ => 0, firstData)] =
      some afterFirst := by
    decide +kernel
  refine ⟨reached, ?_⟩
  rw [header_agrees_iff epoch .nanoseconds (.inr (.inr rfl)) reached]
  decide

/-- A ring with a name of 2³² letters. -/
def hugeData : RecordData :=
  { firstData with ringName := List.replicate (2 ^ 32) 0x61 }

/-- Its length is taken for zero, and the header leaves the name out. -/
theorem huge_name_lost :
    ¬ ∃ bytes after,
      (create Fields.fast0).header epoch .nanoseconds (fun _ => 0) hugeData = some (bytes, after) ∧
        (create Fields.fast0).flexiHeader epoch .nanoseconds hugeData = some (bytes, after) := by
  rw [(create_prints Fields.fast0).agrees_iff epoch .nanoseconds (.inr (.inl rfl))]
  intro ⟨fits, _⟩
  have length := fits rfl
  have ring : hugeData.ringName.length = 2 ^ 32 := List.length_replicate
  rw [RecordData.namesLength, ring] at length
  omega

end Records

end FormatBasic

end Hogl.Format
