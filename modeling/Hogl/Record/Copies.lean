import Hogl.Record.Record

namespace Hogl

open Hogl.Data

/-! # What a copy leaves in the record

`payload` is the part of a data argument that `get_arg_data` reports when
`room` bytes are left for it, and `image` the bytes the copy writes: the
payload with the terminator of a string. -/

namespace Arg

def payload (arg : Arg) (room : Nat) : List UInt8 :=
  match arg with
  | .raw data => data.take room
  | .xdump format data =>
      if room < XdumpFormat.byteSize then []
      else format.bytes ++ data.take (room - XdumpFormat.byteSize)
  | .cstr str =>
      if str = [] ∨ room = 0 then []
      else if str.length < room then str
      else if 4 < room then str.take (room - 4) ++ ascii ">>>"
      else str.take (room - 1)
  | _ => []

def image (arg : Arg) (room : Nat) : List UInt8 :=
  match arg with
  | .cstr str => if str = [] ∨ room = 0 then [] else arg.payload room ++ [0]
  | _ => arg.payload room

theorem payload_isPrefix_image (arg : Arg) (room : Nat) :
    ∃ rest, arg.image room = arg.payload room ++ rest := by
  cases arg with
  | cstr str =>
      by_cases none_stored : str = [] ∨ room = 0
      · exact ⟨[], by simp [image, payload, none_stored]⟩
      · exact ⟨[0], by simp [image, none_stored]⟩
  | none | value | raw | xdump => exact ⟨[], by simp [image]⟩

@[simp] theorem marker_length : (ascii ">>>").length = 3 := rfl

theorem image_length_le (arg : Arg) (room : Nat) : (arg.image room).length ≤ room := by
  cases arg with
  | cstr str =>
      simp only [image, payload]
      split
      · simp
      · rename_i stored
        push Not at stored
        obtain ⟨_, nonzero⟩ := stored
        split <;> [skip; split] <;>
          simp only [List.length_append, List.length_take, List.length_cons, List.length_nil,
            marker_length] <;> omega
  | raw data => simp [image, payload]
  | xdump format data =>
      simp only [image, payload]
      split
      · simp
      · simp only [List.length_append, XdumpFormat.bytes_length, List.length_take]
        omega
  | none | value => simp [image, payload]

end Arg

namespace Record

variable {record after : Record} {index : Nat}

/-! ## Loads after stores -/

theorem write_exists (record : Record) (offset : Nat) (bytes : List UInt8)
    (inside : offset + bytes.length ≤ record.argval.length) :
    ∃ argval, writeAt record.argval offset bytes = some argval ∧
      record.write offset bytes = some { record with argval } := by
  obtain ⟨argval, written⟩ := writeAt_exists record.argval offset bytes inside
  exact ⟨argval, written, by rw [write, written]; rfl⟩

/-- Two records with the same bytes outside `[8 * index, 8 * index + 8)` and
`[offset, offset + count)`, and with the same header. -/
structure SameOutside (before after : Record) (index offset count : Nat) : Prop where
  header : after = { before with argval := after.argval }
  length : after.argval.length = before.argval.length
  frame : ∀ start size, (start + size ≤ 8 * index ∨ 8 * index + 8 ≤ start) →
    (start + size ≤ offset ∨ offset + count ≤ start) →
    readAt after.argval start size = readAt before.argval start size

theorem setArgData_spec (record : Record) (index : Nat) (offset len : UInt32)
    (inside : 8 * index + 8 ≤ record.argval.length) :
    ∃ after, record.setArgData index offset len = some after ∧
      record.SameOutside after index 0 0 ∧
      after.dataOffset index = offset.toNat ∧ after.dataLen index = len.toNat := by
  obtain ⟨first, firstWritten, firstStored⟩ := write_exists record (8 * index)
    (leBytes 4 offset.toNat) (by rw [leBytes_length]; omega)
  have firstLength := writeAt_length firstWritten
  obtain ⟨second, secondWritten, secondStored⟩ := write_exists { record with argval := first }
    (8 * index + 4) (leBytes 4 len.toNat) (by rw [leBytes_length]; change _ ≤ first.length; omega)
  refine ⟨{ record with argval := second }, ?_, ⟨rfl, ?_, ?_⟩, ?_, ?_⟩
  · simp only [setArgData, firstStored, Option.bind_eq_bind, Option.bind_some, secondStored]
  · exact (writeAt_length secondWritten).trans firstLength
  · intro start size apart _
    rw [readAt_writeAt_frame secondWritten (by rw [leBytes_length]; omega),
      readAt_writeAt_frame firstWritten (by rw [leBytes_length]; omega)]
  · have kept := @readAt_writeAt_frame _ _ _ (8 * index) 4 _ secondWritten (by omega)
    have loaded := readAt_writeAt_same firstWritten
    rw [leBytes_length] at loaded
    change leValue (readAt second (8 * index) 4) = offset.toNat
    rw [kept, loaded, leValue_leBytes_of_lt offset.toNat_lt]
  · have loaded := readAt_writeAt_same secondWritten
    rw [leBytes_length] at loaded
    change leValue (readAt second (8 * index + 4) 4) = len.toNat
    rw [loaded, leValue_leBytes_of_lt len.toNat_lt]

/-- A data argument as a copy leaves it: the slot names the payload and the
image stands at `offset`. -/
structure HoldsData (record : Record) (index : Nat) (arg : Arg) (offset room : Nat) : Prop where
  len : record.dataLen index = (arg.payload room).length
  place : arg.image room ≠ [] → record.dataOffset index = offset
  image : readAt record.argval offset (arg.image room).length = arg.image room

theorem HoldsData.getArgData_eq {arg : Arg} {offset room : Nat}
    (holds : record.HoldsData index arg offset room) :
    record.getArgData index = arg.payload room := by
  obtain ⟨rest, split⟩ := arg.payload_isPrefix_image room
  rw [getArgData, holds.len]
  by_cases stored : arg.image room = []
  · rw [stored] at split
    have empty : arg.payload room = [] := (List.append_eq_nil_iff.mp split.symm).1
    rw [empty, List.length_nil, readAt_zero]
  · have image := holds.image
    rw [split, List.length_append, readAt_add] at image
    rw [holds.place stored]
    apply (List.append_inj image ?_).1
    have whole := congrArg List.length image
    simp only [List.length_append, readAt, List.length_take, List.length_drop] at whole ⊢
    omega

/-- The result of copying one data argument behind `offset`. -/
def CopySpec (record : Record) (index : Nat) (arg : Arg) (offset : UInt32) (room : Nat)
    (result : Option (Record × UInt32)) : Prop :=
  ∃ after used, result = some (after, used) ∧ used.toNat = (arg.image room).length ∧
    record.SameOutside after index offset.toNat (arg.image room).length ∧
    after.HoldsData index arg offset.toNat room

/-- Every copy ends the same way: the image is in place and the slot is set
to describe the payload. -/
theorem finishCopy (record : Record) {arg : Arg} {room : Nat} {offset : UInt32} (len : UInt32)
    {memory : List UInt8}
    (clear : 8 * index + 8 ≤ offset.toNat) (fits : 8 * index + 8 ≤ record.argval.length)
    (length : memory.length = record.argval.length)
    (image : readAt memory offset.toNat (arg.image room).length = arg.image room)
    (frame : ∀ start size, (start + size ≤ offset.toNat ∨
      offset.toNat + (arg.image room).length ≤ start) →
      readAt memory start size = readAt record.argval start size)
    (reported : len.toNat = (arg.payload room).length) :
    ∃ after, Record.setArgData { record with argval := memory } index offset len = some after ∧
      record.SameOutside after index offset.toNat (arg.image room).length ∧
      after.HoldsData index arg offset.toNat room := by
  obtain ⟨after, stored, same, offsetRead, lenRead⟩ :=
    setArgData_spec { record with argval := memory } index offset len
      (by change _ ≤ memory.length; omega)
  refine ⟨after, stored, ⟨?_, same.length.trans length, ?_⟩, ?_, fun _ => offsetRead, ?_⟩
  · rw [same.header]
  · intro start size slotApart imageApart
    rw [same.frame start size slotApart (by omega)]
    exact frame start size imageApart
  · rw [lenRead, reported]
  · rw [same.frame _ _ (by omega) (by omega)]
    exact image

/-! ## The three copies

`offset` never passes the end of the record, so the room computed by the
unsigned subtraction is the room that is left. -/

variable {tailroom offset : UInt32} {room : Nat}

theorem room_toNat (left : offset.toNat + room = tailroom.toNat) :
    (tailroom - offset).toNat = room := by
  rw [UInt32.toNat_sub_of_le _ _ (UInt32.le_iff_toNat_le.mpr (by omega))]
  omega

theorem copyData_spec (record : Record) (data : List UInt8) {len : UInt32}
    (size : len.toNat = data.length)
    (left : offset.toNat + room = tailroom.toNat)
    (memory : record.argval.length = tailroom.toNat) (clear : 8 * index + 8 ≤ offset.toNat) :
    record.CopySpec index (.raw data) offset room
      (record.copyData index data len tailroom offset) := by
  have roomEq : (tailroom - offset).toNat = room := room_toNat left
  generalize cut : (if tailroom - offset < len then tailroom - offset else len) = kept
  have keptEq : kept.toNat = min data.length room := by
    rw [← cut]
    split <;> rename_i test <;> rw [UInt32.lt_iff_toNat_lt] at test <;> omega
  have image : data.take kept.toNat = (Arg.raw data).image room := by
    rw [keptEq]
    exact List.take_eq_take_iff.mpr (by omega)
  have imageLength : ((Arg.raw data).image room).length = kept.toNat := by
    rw [← image, List.length_take]
    omega
  obtain ⟨argval, written, stored⟩ := write_exists record offset.toNat (data.take kept.toNat)
    (by rw [image, imageLength]; omega)
  rw [image] at written
  obtain ⟨after, finished, same, holds⟩ := finishCopy record kept clear (by omega)
    (writeAt_length written) (readAt_writeAt_same written) (fun start size apart =>
    readAt_writeAt_frame written apart) imageLength.symm
  refine ⟨after, kept, ?_, imageLength.symm, same, holds⟩
  simp only [copyData, cut, stored, finished, Option.bind_eq_bind, Option.bind_some]
  rfl

/-- An xdump needs room for its format; without it the slot says so. -/
theorem copyXdump_spec (record : Record) (format : XdumpFormat) (data : List UInt8) {len : UInt32}
    (size : len.toNat = data.length) (bounded : data.length < 2 ^ 32 - 4)
    (left : offset.toNat + room = tailroom.toNat)
    (memory : record.argval.length = tailroom.toNat) (clear : 8 * index + 8 ≤ offset.toNat) :
    record.CopySpec index (.xdump format data) offset room
      (record.copyXdump index format data len tailroom offset) := by
  have roomEq : (tailroom - offset).toNat = room := room_toNat left
  have header : (UInt32.ofNat XdumpFormat.byteSize).toNat = 4 := rfl
  have total : (UInt32.ofNat XdumpFormat.byteSize + len).toNat = 4 + data.length := by
    rw [UInt32.toNat_add, header, size, Nat.mod_eq_of_lt (by omega)]
  generalize cut : (if tailroom - offset < UInt32.ofNat XdumpFormat.byteSize + len then
    tailroom - offset else UInt32.ofNat XdumpFormat.byteSize + len) = kept
  have keptEq : kept.toNat = min (4 + data.length) room := by
    rw [← cut]
    split <;> rename_i test <;> rw [UInt32.lt_iff_toNat_lt] at test <;> omega
  have short : kept < UInt32.ofNat XdumpFormat.byteSize ↔ room < XdumpFormat.byteSize := by
    rw [UInt32.lt_iff_toNat_lt, header, keptEq, XdumpFormat.byteSize]
    omega
  by_cases tight : room < XdumpFormat.byteSize
  · have empty : (Arg.xdump format data).image room = [] := by simp [Arg.image, Arg.payload, tight]
    obtain ⟨after, stored, same, _, lenRead⟩ := setArgData_spec record index 0 0 (by omega)
    refine ⟨after, 0, ?_, ?_, ⟨same.header, same.length, ?_⟩, ?_, ?_, ?_⟩
    · simp only [copyXdump, cut, short.mpr tight, if_true, stored, Option.bind_eq_bind,
        Option.bind_some]
      rfl
    · rw [empty]
      rfl
    · exact fun start count slotApart _ => same.frame start count slotApart (by omega)
    · rw [lenRead]
      simp [Arg.payload, tight]
    · exact fun stored => absurd empty stored
    · rw [empty]
      rfl
  · have image : (Arg.xdump format data).image room =
        format.bytes ++ data.take (room - XdumpFormat.byteSize) := by
      simp [Arg.image, Arg.payload, tight]
    have rest : (kept - UInt32.ofNat XdumpFormat.byteSize).toNat = kept.toNat - 4 := by
      rw [UInt32.toNat_sub_of_le _ _ (UInt32.not_lt.mp (mt short.mp tight)), header]
    have taken : data.take (kept - UInt32.ofNat XdumpFormat.byteSize).toNat =
        data.take (room - XdumpFormat.byteSize) := by
      rw [rest, keptEq]
      exact List.take_eq_take_iff.mpr (by simp only [XdumpFormat.byteSize]; omega)
    have imageLength : ((Arg.xdump format data).image room).length = kept.toNat := by
      rw [image, List.length_append, XdumpFormat.bytes_length, List.length_take, keptEq]
      simp only [XdumpFormat.byteSize] at tight ⊢
      omega
    have bodyLength : (data.take (room - XdumpFormat.byteSize)).length + 4 = kept.toNat := by
      rw [← imageLength, image, List.length_append, XdumpFormat.bytes_length]
      exact Nat.add_comm _ _
    obtain ⟨first, firstWritten, firstStored⟩ := write_exists record offset.toNat format.bytes
      (by rw [XdumpFormat.bytes_length, XdumpFormat.byteSize]; omega)
    have firstLength := writeAt_length firstWritten
    obtain ⟨second, secondWritten, secondStored⟩ := write_exists { record with argval := first }
      (offset.toNat + 4) (data.take (room - XdumpFormat.byteSize))
      (by change _ ≤ first.length; omega)
    have whole : readAt second offset.toNat ((Arg.xdump format data).image room).length =
        (Arg.xdump format data).image room := by
      have front := @readAt_writeAt_frame _ _ _ offset.toNat 4 _ secondWritten (by omega)
      have back := readAt_writeAt_same secondWritten
      have loaded : readAt first offset.toNat 4 = format.bytes := readAt_writeAt_same firstWritten
      rw [image, List.length_append, readAt_add, XdumpFormat.bytes_length]
      change readAt second offset.toNat 4 ++ readAt second (offset.toNat + 4) _ = _
      rw [front, loaded, back]
    have frame : ∀ start count, (start + count ≤ offset.toNat ∨
        offset.toNat + ((Arg.xdump format data).image room).length ≤ start) →
        readAt second start count = readAt record.argval start count := by
      intro start count apart
      rw [readAt_writeAt_frame secondWritten (by omega), readAt_writeAt_frame firstWritten
        (by rw [XdumpFormat.bytes_length, XdumpFormat.byteSize]; omega)]
    obtain ⟨after, finished, same, holds⟩ := finishCopy record kept clear (by omega)
      ((writeAt_length secondWritten).trans firstLength) whole frame imageLength.symm
    refine ⟨after, kept, ?_, imageLength.symm, same, holds⟩
    simp only [copyXdump, cut, mt short.mp tight, if_false, firstStored, taken, header,
      secondStored,
      finished, Option.bind_eq_bind, Option.bind_some]
    rfl

/-- Terminating a string whose payload is already in place. -/
theorem terminateCstr {str : List UInt8} {len : UInt32} {memory : List UInt8}
    (left : offset.toNat + room = tailroom.toNat)
    (tail : record.argval.length = tailroom.toNat) (clear : 8 * index + 8 ≤ offset.toNat)
    (nonempty : str ≠ []) (nonzero : room ≠ 0)
    (length : memory.length = record.argval.length)
    (reported : len.toNat = ((Arg.cstr str).payload room).length)
    (payload : readAt memory offset.toNat len.toNat = (Arg.cstr str).payload room)
    (frame : ∀ start size, (start + size ≤ offset.toNat ∨ offset.toNat + len.toNat ≤ start) →
      readAt memory start size = readAt record.argval start size) :
    record.CopySpec index (.cstr str) offset room (do
      let record ← Record.write { record with argval := memory } (offset.toNat + len.toNat) [0]
      let record ← record.setArgData index offset len
      return (record, len + 1)) := by
  have stored : ¬ (str = [] ∨ room = 0) := by simp [nonempty, nonzero]
  have image : (Arg.cstr str).image room = (Arg.cstr str).payload room ++ [0] := by
    simp [Arg.image, stored]
  have imageLength : ((Arg.cstr str).image room).length = len.toNat + 1 := by
    rw [image, List.length_append, ← reported]
    rfl
  have bound := (Arg.cstr str).image_length_le room
  have small := tailroom.toNat_lt
  obtain ⟨ended, written, wrote⟩ := write_exists { record with argval := memory }
    (offset.toNat + len.toNat) [0] (by change _ + 1 ≤ memory.length; omega)
  have whole : readAt ended offset.toNat ((Arg.cstr str).image room).length =
      (Arg.cstr str).image room := by
    rw [imageLength, readAt_add, readAt_writeAt_frame written (by omega),
      show readAt ended (offset.toNat + len.toNat) 1 = [0] from readAt_writeAt_same written,
      image, payload]
  have outside : ∀ start size, (start + size ≤ offset.toNat ∨
      offset.toNat + ((Arg.cstr str).image room).length ≤ start) →
      readAt ended start size = readAt record.argval start size := by
    intro start size apart
    rw [readAt_writeAt_frame written (by simp only [List.length_cons, List.length_nil]; omega)]
    exact frame start size (by omega)
  obtain ⟨after, finished, same, holds⟩ := finishCopy record len clear (by omega)
    ((writeAt_length written).trans length) whole outside reported
  refine ⟨after, len + 1, ?_, ?_, same, holds⟩
  · simp only [wrote, finished, Option.bind_eq_bind, Option.bind_some]
    rfl
  · rw [UInt32.toNat_add, UInt32.toNat_one, Nat.mod_eq_of_lt (by omega), imageLength]

theorem copyCstr_spec (record : Record) (str : List UInt8) {len : UInt32}
    (size : len.toNat = str.length)
    (left : offset.toNat + room = tailroom.toNat)
    (memory : record.argval.length = tailroom.toNat) (clear : 8 * index + 8 ≤ offset.toNat) :
    record.CopySpec index (.cstr str) offset room
      (record.copyCstr index str len tailroom offset) := by
  have roomEq : (tailroom - offset).toNat = room := room_toNat left
  have lenZero : len = 0 ↔ str = [] := by
    rw [← UInt32.toNat_inj, size, UInt32.toNat_zero, List.length_eq_zero_iff]
  have roomZero : tailroom - offset = 0 ↔ room = 0 := by
    rw [← UInt32.toNat_inj, roomEq, UInt32.toNat_zero]
  by_cases skipped : str = [] ∨ room = 0
  · have empty : (Arg.cstr str).image room = [] := by simp only [Arg.image, skipped, if_true]
    obtain ⟨after, stored, same, _, lenRead⟩ := setArgData_spec record index 0 0 (by omega)
    refine ⟨after, 0, ?_, ?_, ⟨same.header, same.length, ?_⟩, ?_, ?_, ?_⟩
    · simp only [copyCstr, lenZero, roomZero, skipped, if_true, stored, Option.bind_eq_bind,
        Option.bind_some]
      rfl
    · rw [empty]
      rfl
    · exact fun start count slotApart _ => same.frame start count slotApart (by omega)
    · rw [lenRead]
      simp only [Arg.payload, skipped, if_true]
      rfl
    · exact fun stored => absurd empty stored
    · rw [empty]
      rfl
  · obtain ⟨nonempty, nonzero⟩ := not_or.mp skipped
    have lastEq : (tailroom - offset - 1).toNat = room - 1 := by
      rw [UInt32.toNat_sub_of_le _ _ (UInt32.le_iff_toNat_le.mpr (by
        rw [roomEq, UInt32.toNat_one]
        omega)), roomEq, UInt32.toNat_one]
    have truncated : tailroom - offset - 1 < len ↔ ¬ str.length < room := by
      rw [UInt32.lt_iff_toNat_lt, lastEq, size]
      omega
    have marked : 3 < tailroom - offset - 1 ↔ 4 < room := by
      rw [UInt32.lt_iff_toNat_lt, lastEq]
      change 3 < room - 1 ↔ _
      omega
    simp only [copyCstr, lenZero, roomZero, skipped, if_false]
    by_cases fits : str.length < room
    · have payload : (Arg.cstr str).payload room = str := by
        simp only [Arg.payload, skipped, if_false, fits, if_true]
      obtain ⟨argval, written, stored⟩ := write_exists record offset.toNat str (by omega)
      have taken : str.take len.toNat = str := List.take_of_length_le (by omega)
      simp only [truncated, fits, not_true_eq_false, if_false, taken, stored, Option.bind_eq_bind,
        Option.bind_some]
      apply terminateCstr left memory clear nonempty nonzero (writeAt_length written)
      · rw [payload, size]
      · rw [payload, size]
        exact readAt_writeAt_same written
      · intro start count apart
        exact readAt_writeAt_frame written (by omega)
    · simp only [truncated, fits, not_false_eq_true, if_true, marked]
      by_cases wide : 4 < room
      · have payload : (Arg.cstr str).payload room = str.take (room - 4) ++ ascii ">>>" := by
          simp only [Arg.payload, skipped, if_false, fits, wide, if_true]
        have cutEq : (tailroom - offset - 1 - 3).toNat = room - 4 := by
          rw [UInt32.toNat_sub_of_le _ _ (UInt32.le_iff_toNat_le.mpr (by
            rw [lastEq]
            change 3 ≤ room - 1
            omega)), lastEq]
          change room - 1 - 3 = room - 4
          omega
        have prefixLength : (str.take (room - 4)).length = room - 4 := by
          rw [List.length_take]
          omega
        obtain ⟨first, firstWritten, firstStored⟩ := write_exists record (offset.toNat + (room - 4))
          (ascii ">>>") (by rw [Arg.marker_length]; omega)
        have firstLength := writeAt_length firstWritten
        obtain ⟨second, secondWritten, secondStored⟩ := write_exists { record with argval := first }
          offset.toNat (str.take (room - 4)) (by rw [prefixLength]; change _ ≤ first.length; omega)
        simp only [wide, if_true, cutEq, firstStored, secondStored, Option.bind_eq_bind,
          Option.bind_some]
        apply terminateCstr left memory clear nonempty nonzero
          ((writeAt_length secondWritten).trans firstLength)
        · rw [payload, List.length_append, prefixLength, Arg.marker_length, lastEq]
          omega
        · have front : readAt second offset.toNat (room - 4) = str.take (room - 4) := by
            simpa only [prefixLength] using readAt_writeAt_same secondWritten
          have back : readAt second (offset.toNat + (room - 4)) 3 = ascii ">>>" := by
            rw [readAt_writeAt_frame secondWritten (by omega)]
            exact readAt_writeAt_same firstWritten
          rw [payload, lastEq, show room - 1 = room - 4 + 3 by omega, readAt_add, front, back]
        · intro start count apart
          rw [readAt_writeAt_frame secondWritten (by omega),
            readAt_writeAt_frame firstWritten (by rw [Arg.marker_length]; omega)]
      · have payload : (Arg.cstr str).payload room = str.take (room - 1) := by
          simp only [Arg.payload, skipped, if_false, fits, wide]
        have prefixLength : (str.take (room - 1)).length = room - 1 := by
          rw [List.length_take]
          omega
        obtain ⟨argval, written, stored⟩ := write_exists record offset.toNat (str.take (room - 1))
          (by omega)
        simp only [wide, if_false, lastEq, stored, Option.bind_eq_bind, Option.bind_some]
        rw [← lastEq]
        apply terminateCstr left memory clear nonempty nonzero (writeAt_length written)
        · rw [payload, lastEq, prefixLength]
        · rw [payload, lastEq]
          simpa only [prefixLength] using readAt_writeAt_same written
        · intro start count apart
          exact readAt_writeAt_frame written (by omega)

end Record

end Hogl
