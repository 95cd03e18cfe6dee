import Hogl.Format.Xdump
import Hogl.Post.Posting

namespace Hogl

open Hogl.Data Hogl.Ring

/-! # Formatting posted dumps

`copy_xdump` stores nothing when fewer bytes are left than its header needs;
`do_xdump` then finds an empty payload. -/

namespace Arg

variable {tailroom index room : Nat} {args : List Arg} {arg : Arg}

/-- The bytes an argument takes when nothing is cut off. -/
def need : Arg → Nat
  | .cstr str => if str = [] then 0 else str.length + 1
  | .raw data => data.length
  | .xdump _ data => XdumpFormat.byteSize + data.length
  | _ => 0

/-- Where the data of the argument at `index` would go if nothing before it
is cut off. -/
def placeAt (args : List Arg) (index : Nat) : Nat :=
  8 * slotsUsed args + ((args.take index).map need).sum

theorem placeAt_succ (found : args[index]? = some arg) :
    placeAt args (index + 1) = placeAt args index + arg.need := by
  rw [placeAt, List.take_add_one, found, Option.toList_some, List.map_append, List.sum_append,
    List.map_singleton, List.sum_singleton, ← Nat.add_assoc]
  rfl

theorem image_length (arg : Arg) (enough : XdumpFormat.byteSize ≤ room) :
    (arg.image room).length = min arg.need room := by
  rw [XdumpFormat.byteSize] at enough
  cases arg with
  | cstr str =>
      by_cases empty : str = []
      · simp [image, need, empty]
      · have nonzero : room ≠ 0 := by omega
        simp only [image, payload, need, empty, nonzero, or_self, if_false]
        split
        · rw [List.length_append, List.length_singleton]
          omega
        · split
          · simp only [List.length_append, List.length_take, marker_length, List.length_singleton]
            omega
          · simp only [List.length_append, List.length_take, List.length_singleton]
            omega
  | raw data =>
      simp only [image, payload, need, List.length_take]
      omega
  | xdump format data =>
      have stored : ¬ room < XdumpFormat.byteSize := by rw [XdumpFormat.byteSize]; omega
      simp only [image, payload, need, stored, if_false, List.length_append, List.length_take,
        XdumpFormat.bytes_length]
      rw [XdumpFormat.byteSize]
      omega
  | none | value => simp [image, payload, need]

/-- Room for a header is left at an argument exactly when nothing before it
was cut off and the header still fits behind that. -/
theorem room_iff (args : List Arg) (tailroom index : Nat) :
    (offsetAt tailroom args index + XdumpFormat.byteSize ≤ tailroom ↔
      placeAt args index + XdumpFormat.byteSize ≤ tailroom) ∧
      (placeAt args index + XdumpFormat.byteSize ≤ tailroom →
        offsetAt tailroom args index = placeAt args index) := by
  induction index with
  | zero => simp [offsetAt, placeAt]
  | succ index ih =>
      obtain ⟨same, exact_place⟩ := ih
      cases found : args[index]? with
      | none =>
          have offset : offsetAt tailroom args (index + 1) = offsetAt tailroom args index := by
            rw [offsetAt, offsetAt, List.take_add_one, found, Option.toList_none, List.append_nil]
          have place : placeAt args (index + 1) = placeAt args index := by
            rw [placeAt, placeAt, List.take_add_one, found, Option.toList_none, List.append_nil]
          rw [offset, place]
          exact ⟨same, exact_place⟩
      | some arg =>
          rw [offsetAt_succ found, placeAt_succ found]
          by_cases fits : placeAt args index + XdumpFormat.byteSize ≤ tailroom
          · rw [roomAt, exact_place fits, image_length arg (by omega)]
            rw [XdumpFormat.byteSize] at *
            omega
          · have tight := mt same.mp fits
            omega

end Arg

namespace Format

variable {record : Record} {args : List Arg} {tailroom index : Nat}

/-- `do_xdump` gets the posted format and a prefix of the posted data, and
does not fault on them. -/
def GoodDump (record : Record) (args : List Arg) (index : Nat) : Prop :=
  ∃ format data kept, args[index]? = some (.xdump format data) ∧ kept <+: data ∧
    record.getArgData index = format.bytes ++ kept ∧
    ∀ stop, doXdump (record.getArgData index) = .error stop → stop = .endless

/-- Formatting the record calls `do_xdump` only where that is safe. -/
def DumpsSafe (record : Record) (args : List Arg) : Prop :=
  (∀ index ∈ xdumpCalls record, GoodDump record args index) ∧
    ∀ stop, processArgs record = .error stop → stop = .endless

/-- A dump that is stored without its last bytes, if any, and never ends. -/
def EndlessAt (tailroom : Nat) (args : List Arg) (index : Nat) : Prop :=
  ∃ format data, args[index]? = some (.xdump format data) ∧
    Endless format (min data.length (tailroom - Arg.placeAt args index - XdumpFormat.byteSize))

/-- Every dump that `output_plain` gets to has room for its header behind the
arguments before it. -/
def DumpsFit (tailroom : Nat) (args : List Arg) : Prop :=
  outputKind (args.getD 0 .none).type (args.getD 1 .none).type = .plain →
    ∀ index format data, args[index]? = some (.xdump format data) →
      (∀ earlier < index, args.getD earlier .none ≠ .none ∧ ¬ EndlessAt tailroom args earlier) →
      Arg.placeAt args index + XdumpFormat.byteSize ≤ tailroom

theorem type_eq_xdump_iff : (args.getD index .none).type = .xdump ↔
    ∃ format data, args[index]? = some (.xdump format data) := by
  rw [List.getD_eq_getElem?_getD]
  cases found : args[index]? with
  | none => simp [Arg.type]
  | some arg =>
      cases arg with
      | value type val => cases type <;> simp [Arg.type, ValueType.argType]
      | none | cstr | raw | xdump => simp [Arg.type]

theorem type_eq_none_iff (arg : Arg) : arg.type = .none ↔ arg = .none := by
  cases arg with
  | value type val => cases type <;> simp [Arg.type, ValueType.argType]
  | none | cstr | raw | xdump => simp [Arg.type]

section Posted

variable (holds : record.Holds args tailroom)
include holds

/-- What a dump finds in a posted record. -/
theorem getArgData_dump {format : XdumpFormat} {data : List UInt8}
    (found : args[index]? = some (.xdump format data)) :
    record.getArgData index =
      if Arg.placeAt args index + XdumpFormat.byteSize ≤ tailroom then
        format.bytes ++
          data.take (tailroom - Arg.placeAt args index - XdumpFormat.byteSize)
      else [] := by
  obtain ⟨same, exact_place⟩ := Arg.room_iff args tailroom index
  rw [(holds.data index _ found rfl).1, Arg.payload, Arg.roomAt]
  by_cases fits : Arg.placeAt args index + XdumpFormat.byteSize ≤ tailroom
  · rw [exact_place fits, if_neg (by omega), if_pos fits]
  · have tight := mt same.mp fits
    rw [if_pos (by rw [XdumpFormat.byteSize] at *; omega), if_neg fits]

theorem getArgType_eq (inside : index < Record.nargs) :
    record.getArgType index = (args.getD index .none).type := holds.types index inside

/-- A posted dump returns exactly when it has its header and an end. -/
theorem dump_returns_iff {format : XdumpFormat} {data : List UInt8}
    (found : args[index]? = some (.xdump format data)) (width : format.byteWidth.toNat ≠ 0)
    (limit : tailroom + 256 ≤ 2 ^ 32) :
    (∃ pieces, doXdump (record.getArgData index) = .ok pieces) ↔
      Arg.placeAt args index + XdumpFormat.byteSize ≤ tailroom ∧
        ¬ EndlessAt tailroom args index := by
  have own : EndlessAt tailroom args index ↔ Endless format
      (min data.length (tailroom - Arg.placeAt args index - XdumpFormat.byteSize)) := by
    constructor
    · intro ⟨format', data', found', endless⟩
      rw [found, Option.some.injEq, Arg.xdump.injEq] at found'
      obtain ⟨rfl, rfl⟩ := found'
      exact endless
    · exact fun endless => ⟨format, data, found, endless⟩
  rw [getArgData_dump holds found, own]
  by_cases fits : Arg.placeAt args index + XdumpFormat.byteSize ≤ tailroom
  · have dumped := doXdump_stored format (data.take
      (tailroom - Arg.placeAt args index - XdumpFormat.byteSize)) width
      (by rw [List.length_take]; omega)
    rw [List.length_take, Nat.min_comm] at dumped
    simp only [fits, if_true, true_and]
    split at dumped
    · rename_i endless
      simp [dumped, endless]
    · rename_i ends
      simp [dumped, ends]
  · simp [fits, doXdump_empty]

theorem goodDump_iff {format : XdumpFormat} {data : List UInt8}
    (found : args[index]? = some (.xdump format data)) (width : format.byteWidth.toNat ≠ 0)
    (limit : tailroom + 256 ≤ 2 ^ 32) :
    GoodDump record args index ↔ Arg.placeAt args index + XdumpFormat.byteSize ≤ tailroom := by
  have stored := getArgData_dump holds found
  constructor
  · intro ⟨format', data', kept, _, _, payload, _⟩
    by_contra tight
    rw [if_neg tight, payload] at stored
    simp [XdumpFormat.bytes] at stored
  · intro fits
    rw [if_pos fits] at stored
    refine ⟨format, data, _, found, List.take_prefix _ _, stored, ?_⟩
    intro stop stopped
    have dumped := doXdump_stored format (data.take
      (tailroom - Arg.placeAt args index - XdumpFormat.byteSize)) width
      (by rw [List.length_take]; omega)
    rw [← stored] at dumped
    split at dumped
    · rw [dumped, Except.error.injEq] at stopped
      exact stopped.symm
    · obtain ⟨pieces, returned⟩ := dumped
      rw [returned] at stopped
      cases stopped

/-- The dumps of a posted record are formatted safely exactly when each one
that is reached has room for its header. -/
theorem dumpsSafe_iff (few : args.length ≤ Record.nargs)
    (widths : ∀ format data, Arg.xdump format data ∈ args → format.byteWidth.toNat ≠ 0)
    (limit : tailroom + 256 ≤ 2 ^ 32) :
    DumpsSafe record args ↔ DumpsFit tailroom args := by
  have kind : outputKind (record.getArgType 0) (record.getArgType 1) =
      outputKind (args.getD 0 .none).type (args.getD 1 .none).type := by
    rw [getArgType_eq holds (by decide), getArgType_eq holds (by decide)]
  -- An argument is passed when it is set and its dump, if it is one, returns.
  have passed_iff : ∀ position < Record.nargs, Passed record position ↔
      args.getD position .none ≠ .none ∧
        ∀ format data, args[position]? = some (.xdump format data) →
          Arg.placeAt args position + XdumpFormat.byteSize ≤ tailroom ∧
            ¬ EndlessAt tailroom args position := by
    intro position inside
    rw [Passed, getArgType_eq holds inside, Ne, type_eq_none_iff, type_eq_xdump_iff]
    apply and_congr_right
    intro _
    constructor
    · intro returns format data found
      exact (dump_returns_iff holds found (widths format data (List.mem_of_getElem? found))
        limit).mp
        (returns ⟨format, data, found⟩)
    · rintro fits ⟨format, data, found⟩
      exact (dump_returns_iff holds found (widths format data (List.mem_of_getElem? found))
        limit).mpr
        (fits format data found)
  have inside_of : ∀ {position : Nat} {arg : Arg}, args[position]? = some arg →
      position < Record.nargs := fun found =>
    Nat.lt_of_lt_of_le (List.getElem?_eq_some_iff.mp found).1 few
  constructor
  · rintro ⟨good, -⟩ plain index
    -- By induction every earlier dump fits, so the loop reaches this one.
    induction index using Nat.strong_induction_on with
    | _ index ih =>
        intro format data found before
        have inside := inside_of found
        have width := widths format data (List.mem_of_getElem? found)
        apply (goodDump_iff holds found width limit).mp
        apply good
        refine mem_xdumpCalls.mpr ⟨kind.trans plain, inside, ?_, ?_⟩
        · rw [getArgType_eq holds inside, type_eq_xdump_iff]
          exact ⟨format, data, found⟩
        · intro earlier below
          refine (passed_iff earlier (by omega)).mpr ⟨(before earlier below).1, ?_⟩
          intro format' data' found'
          exact ⟨ih earlier below format' data' found'
            fun position lower => before position (by omega), (before earlier below).2⟩
  · intro fit
    have good : ∀ index ∈ xdumpCalls record, GoodDump record args index := by
      intro index called
      obtain ⟨plain, inside, type, before⟩ := mem_xdumpCalls.mp called
      rw [getArgType_eq holds inside, type_eq_xdump_iff] at type
      obtain ⟨format, data, found⟩ := type
      apply (goodDump_iff holds found (widths format data (List.mem_of_getElem? found)) limit).mpr
      apply fit (kind.symm.trans plain) index format data found
      intro earlier below
      obtain ⟨set, ends⟩ := (passed_iff earlier (by omega)).mp (before earlier below)
      refine ⟨set, ?_⟩
      rintro ⟨format', data', found', endless⟩
      exact (ends format' data' found').2 ⟨format', data', found', endless⟩
    refine ⟨good, fun stop failed => ?_⟩
    obtain ⟨index, called, stopped⟩ := processArgs_error failed
    obtain ⟨_, _, _, _, _, _, faultless⟩ := good index called
    exact faultless stop stopped

end Posted

/-- Nothing is dumped for a record without arguments. -/
theorem dumpsSafe_of_unset (types : ∀ index, record.getArgType index = .none) :
    DumpsSafe record args := by
  have none_called : ∀ index, index ∉ xdumpCalls record := by
    intro index called
    have type := (mem_xdumpCalls.mp called).2.2.1
    rw [types index] at type
    cases type
  refine ⟨fun index called => absurd called (none_called index), fun stop failed => ?_⟩
  obtain ⟨index, called, -⟩ := processArgs_error failed
  exact absurd called (none_called index)

open Post

end Format

end Hogl
