import Hogl.Record.Packing

namespace Hogl

open Hogl.Data

/-! # Stores outside the record

Every encoder step ends with a store into the slot of its argument, so it
succeeds only where that slot lies inside the record. -/

namespace Record

variable {record after : Record} {index : Nat} {tailroom offset : UInt32}

theorem write_some {place : Nat} {bytes : List UInt8}
    (written : record.write place bytes = some after) :
    place + bytes.length ≤ record.argval.length ∧ after.argval.length = record.argval.length := by
  obtain ⟨argval, stored, rfl⟩ := Option.map_eq_some_iff.mp written
  exact ⟨writeAt_inside stored, writeAt_length stored⟩

theorem setArgData_some {place len : UInt32}
    (written : record.setArgData index place len = some after) :
    8 * index + 8 ≤ record.argval.length := by
  obtain ⟨middle, first, second⟩ := Option.bind_eq_some_iff.mp written
  have inside := (write_some second).1
  rw [leBytes_length, (write_some first).2] at inside
  omega

theorem copyData_some {data : List UInt8} {len : UInt32} {result : Record × UInt32}
    (copied : record.copyData index data len tailroom offset = some result) :
    8 * index + 8 ≤ record.argval.length := by
  obtain ⟨middle, first, rest⟩ := Option.bind_eq_some_iff.mp copied
  obtain ⟨last, second, -⟩ := Option.bind_eq_some_iff.mp rest
  rw [← (write_some first).2]
  exact setArgData_some second

theorem copyXdump_some {format : XdumpFormat} {data : List UInt8} {len : UInt32}
    {result : Record × UInt32}
    (copied : record.copyXdump index format data len tailroom offset = some result) :
    8 * index + 8 ≤ record.argval.length := by
  unfold copyXdump at copied
  extract_lets hlen room whole len at copied
  split at copied
  · obtain ⟨last, stored, -⟩ := Option.bind_eq_some_iff.mp copied
    exact setArgData_some stored
  · obtain ⟨first, header, rest⟩ := Option.bind_eq_some_iff.mp copied
    obtain ⟨second, body, rest⟩ := Option.bind_eq_some_iff.mp rest
    obtain ⟨last, stored, -⟩ := Option.bind_eq_some_iff.mp rest
    rw [← (write_some header).2, ← (write_some body).2]
    exact setArgData_some stored

theorem copyCstr_some {str : List UInt8} {len : UInt32} {result : Record × UInt32}
    (copied : record.copyCstr index str len tailroom offset = some result) :
    8 * index + 8 ≤ record.argval.length := by
  simp only [copyCstr, Option.bind_eq_bind] at copied
  split at copied
  · obtain ⟨last, stored, -⟩ := Option.bind_eq_some_iff.mp copied
    exact setArgData_some stored
  · split at copied
    · split at copied
      · obtain ⟨marked, marker, rest⟩ := Option.bind_eq_some_iff.mp copied
        obtain ⟨first, text, rest⟩ := Option.bind_eq_some_iff.mp rest
        obtain ⟨second, terminator, rest⟩ := Option.bind_eq_some_iff.mp rest
        obtain ⟨last, stored, -⟩ := Option.bind_eq_some_iff.mp rest
        rw [← (write_some marker).2, ← (write_some text).2, ← (write_some terminator).2]
        exact setArgData_some stored
      · obtain ⟨first, text, rest⟩ := Option.bind_eq_some_iff.mp copied
        obtain ⟨second, terminator, rest⟩ := Option.bind_eq_some_iff.mp rest
        obtain ⟨last, stored, -⟩ := Option.bind_eq_some_iff.mp rest
        rw [← (write_some text).2, ← (write_some terminator).2]
        exact setArgData_some stored
    · obtain ⟨first, text, rest⟩ := Option.bind_eq_some_iff.mp copied
      obtain ⟨second, terminator, rest⟩ := Option.bind_eq_some_iff.mp rest
      obtain ⟨last, stored, -⟩ := Option.bind_eq_some_iff.mp rest
      rw [← (write_some text).2, ← (write_some terminator).2]
      exact setArgData_some stored

theorem setPackedArg_some {pack : Argpack} {result : Record × UInt32}
    (stored : record.setPackedArg pack index tailroom offset = some result) :
    8 * index + 8 ≤ record.argval.length := by
  simp only [setPackedArg] at stored
  split at stored
  · obtain ⟨copy, copied, -⟩ := Option.bind_eq_some_iff.mp stored
    exact copyData_some copied
  · obtain ⟨copy, copied, -⟩ := Option.bind_eq_some_iff.mp stored
    exact copyXdump_some copied
  · obtain ⟨copy, copied, -⟩ := Option.bind_eq_some_iff.mp stored
    exact copyCstr_some copied
  · obtain ⟨copy, written, -⟩ := Option.bind_eq_some_iff.mp stored
    have inside := (write_some written).1
    rwa [leBytes_length] at inside

theorem setArg_some {arg : Arg} {result : Record × UInt32} (empty : record.argval = [])
    (stored : record.setArg index arg tailroom offset = some result) :
    arg = .none ∧ result.1 = record := by
  have short : record.argval.length < 8 * index + 8 := by rw [empty, List.length_nil]; omega
  cases arg with
  | none =>
      simp only [setArg, Option.some.injEq] at stored
      subst stored
      exact ⟨rfl, rfl⟩
  | value type val =>
      simp only [setArg] at stored
      split at stored
      · obtain ⟨copy, written, -⟩ := Option.bind_eq_some_iff.mp stored
        have inside := (write_some written).1
        rw [leBytes_length] at inside
        simp [setArgType, empty] at inside
      · obtain ⟨copy, written, -⟩ := Option.bind_eq_some_iff.mp stored
        have inside := (write_some written).1
        rw [leBytes_length] at inside
        simp [setArgType, empty] at inside
  | cstr str =>
      obtain ⟨copy, copied, -⟩ := Option.bind_eq_some_iff.mp stored
      exact absurd (copyCstr_some copied) (Nat.not_le_of_lt short)
  | raw data =>
      obtain ⟨copy, copied, -⟩ := Option.bind_eq_some_iff.mp stored
      exact absurd (copyData_some copied) (Nat.not_le_of_lt short)
  | xdump format data =>
      obtain ⟨copy, copied, -⟩ := Option.bind_eq_some_iff.mp stored
      exact absurd (copyXdump_some copied) (Nat.not_le_of_lt short)

theorem setArgsFrom_some {args : List Arg} {result : Record × UInt32}
    (stored : setArgsFrom tailroom args index offset record = some result)
    (empty : record.argval = []) :
    (∀ arg ∈ args, arg = .none) ∧ result.1 = record := by
  induction args generalizing index offset with
  | nil =>
      simp only [setArgsFrom, Option.some.injEq] at stored
      subst stored
      exact ⟨fun _ member => absurd member List.not_mem_nil, rfl⟩
  | cons arg args ih =>
      obtain ⟨⟨middle, next⟩, first, rest⟩ := Option.bind_eq_some_iff.mp stored
      obtain ⟨unset, rfl⟩ := setArg_some empty first
      obtain ⟨unsetRest, same⟩ := ih rest
      exact ⟨List.forall_mem_cons.mpr ⟨unset, unsetRest⟩, same⟩

/-- Where no byte can be stored only an empty list is encoded. -/
theorem encodeArgs_some {args : List Arg} {scratch : Argpack} (few : args.length ≤ 16)
    (empty : record.argval = []) (encoded : record.encodeArgs tailroom args scratch = some after) :
    (∀ arg ∈ args, arg = .none) ∧ after = { record with argtype := 0 } := by
  cases populated : scratch.populate args with
  | mk pack complex =>
      cases complex with
      | zero =>
          simp only [encodeArgs, populated] at encoded
          obtain ⟨result, stored, same⟩ := Option.bind_eq_some_iff.mp encoded
          obtain ⟨unset, unchanged⟩ := setArgsFrom_some stored empty
          cases same
          exact ⟨unset, unchanged⟩
      | succ complex =>
          have slotCount := scratch.populate_nargs few
          have reserved : Arg.slotsUsed args ≠ 0 := by
            intro unused
            have simple := Argpack.populateFrom_none (Arg.eq_none_of_slotsUsed unused) 0
              { scratch with argtype := 0 }
            rw [← Argpack.populate, populated] at simple
            cases simple
          obtain ⟨count, counted⟩ := Nat.exists_eq_succ_of_ne_zero reserved
          rw [populated, counted] at slotCount
          simp only at slotCount
          simp only [encodeArgs, populated, setPackedArgs, slotCount, setPackedArgsFrom,
            Option.bind_eq_bind] at encoded
          obtain ⟨final, stored, -⟩ := Option.bind_eq_some_iff.mp encoded
          obtain ⟨result, first, -⟩ := Option.bind_eq_some_iff.mp stored
          have inside := setPackedArg_some first
          simp [empty] at inside
end Record

end Hogl
