import Hogl.Raw.Parser

namespace Hogl.Raw

open Hogl.Data

/-! # What the reads do

A length-prefixed field of the input, and the reads of the parser on it. -/

/-- The length a field announces. -/
def announced (width : Nat) (input : List UInt8) : Nat := leValue (input.take width)

/-- The input behind the length of a field. -/
def body (width : Nat) (input : List UInt8) : List UInt8 := input.drop width

/-- The field is there with all its bytes. -/
def Complete (width : Nat) (input : List UInt8) : Prop :=
  width ≤ input.length ∧ announced width input ≤ (body width input).length

instance (width : Nat) (input : List UInt8) : Decidable (Complete width input) :=
  inferInstanceAs (Decidable (_ ∧ _))

/-- The bytes of a field that the input still has. -/
def available (width : Nat) (input : List UInt8) : List UInt8 :=
  if width ≤ input.length then (body width input).take (announced width input) else []

/-- The input behind a complete field. -/
def behind (width : Nat) (input : List UInt8) : List UInt8 :=
  (body width input).drop (announced width input)

/-- What a string read stores: a terminator only behind a complete string. -/
def terminated (width : Nat) (input : List UInt8) : List UInt8 :=
  if Complete width input then available width input ++ [0] else available width input

theorem available_length {width : Nat} {input : List UInt8} (complete : Complete width input) :
    (available width input).length = announced width input := by
  rw [available, if_pos complete.1, List.length_take, Nat.min_eq_left complete.2]

theorem terminated_length {width : Nat} {input : List UInt8} (complete : Complete width input) :
    (terminated width input).length = announced width input + 1 := by
  rw [terminated, if_pos complete, List.length_append, available_length complete]
  rfl

namespace Parser

variable {parser : Parser} {width offset : Nat} {memory : List UInt8} {stage : String}

/-- Two parsers with the same buffers. -/
structure SameBuffers (before after : Parser) : Prop where
  record : after.record = before.record
  ringName : after.ringName = before.ringName
  areaName : after.areaName = before.areaName
  sectionName : after.sectionName = before.sectionName

theorem readUint_complete (stage : String) (ok : parser.failed = false)
    (enough : width ≤ parser.input.length) :
    parser.readUint width stage =
      (leValue (parser.input.take width), { parser with input := parser.input.drop width }) := by
  simp [readUint, ok, read, enough]

theorem readUint_short (stage : String) (ok : parser.failed = false)
    (short : parser.input.length < width) :
    ∃ after, parser.readUint width stage = (leValue parser.input, after) ∧ after.failed = true ∧
      parser.SameBuffers after ∧ after.input = [] := by
  refine ⟨fail { parser with input := parser.input.drop width } "input: failed to read uint @ "
    stage,
    ?_, rfl, ⟨rfl, rfl, rfl, rfl⟩, List.drop_eq_nil_of_le (Nat.le_of_lt short)⟩
  simp only [readUint, ok, Bool.false_eq_true, if_false, read, Nat.not_le_of_lt short,
    decide_false, List.take_of_length_le (Nat.le_of_lt short)]

theorem readUint_failed (failed : parser.failed = true) :
    parser.readUint width stage = (0, parser) := by
  simp [readUint, failed]

theorem readStr_failed (failed : parser.failed = true) :
    parser.readStr width memory offset stage = some (0, memory, parser) := by
  simp [readStr, failed]

/-- A complete field is stored where it was asked for. -/
theorem readBlob_complete {after : List UInt8} (ok : parser.failed = false)
    (complete : Complete width parser.input)
    (written : writeAt memory offset (available width parser.input) = some after) :
    parser.readBlob width memory offset stage = some (announced width parser.input, after,
      { parser with input := behind width parser.input }) := by
  obtain ⟨enough, whole⟩ := complete
  rw [available, if_pos enough] at written
  simp only [readBlob, ok, Bool.false_eq_true, if_false, readUint_complete _ ok enough, false_or,
    read]
  rw [← announced, ← body]
  by_cases empty : announced width parser.input = 0
  · rw [empty, List.take_zero] at written
    have unchanged : after = memory := by
      have inside := writeAt_inside written
      rw [writeAt, if_pos inside, Option.some.injEq] at written
      simpa using written.symm
    simp [empty, unchanged, behind]
  · simp only [empty, if_false, written, Option.bind_eq_bind, Option.bind_some, whole, decide_true,
      if_true, behind]
    rfl

/-- What is there of an incomplete field is stored too, and the parser fails. -/
theorem readBlob_incomplete {after : List UInt8} (stage : String) (ok : parser.failed = false)
    (incomplete : ¬ Complete width parser.input)
    (written : writeAt memory offset (available width parser.input) = some after) :
    ∃ final, parser.readBlob width memory offset stage = some (0, after, final) ∧
      final.failed = true ∧ parser.SameBuffers final := by
  by_cases enough : width ≤ parser.input.length
  · have short : ¬ announced width parser.input ≤ (body width parser.input).length :=
      fun whole => incomplete ⟨enough, whole⟩
    have nonempty : announced width parser.input ≠ 0 := by omega
    rw [available, if_pos enough] at written
    refine ⟨fail { parser with input := behind width parser.input } "input: failed to read blob @ "
      stage, ?_, rfl, rfl, rfl, rfl, rfl⟩
    simp only [readBlob, ok, Bool.false_eq_true, if_false, readUint_complete _ ok enough, false_or,
      read]
    rw [← announced, ← body]
    simp only [nonempty, if_false, written, Option.bind_eq_bind, Option.bind_some, short,
      decide_false, Bool.false_eq_true, behind]
    rfl
  · rw [available, if_neg enough] at written
    have unchanged : after = memory := by
      have inside := writeAt_inside written
      rw [writeAt, if_pos inside, Option.some.injEq] at written
      simpa using written.symm
    obtain ⟨final, shortRead, failed, same, -⟩ := readUint_short stage ok (Nat.lt_of_not_le enough)
    exact ⟨final, by simp [readBlob, ok, shortRead, failed, unchanged], failed, same⟩

theorem readBlob_fault (ok : parser.failed = false)
    (outside : writeAt memory offset (available width parser.input) = none)
    (inside : offset ≤ memory.length) : parser.readBlob width memory offset stage = none := by
  by_cases enough : width ≤ parser.input.length
  · rw [available, if_pos enough] at outside
    simp only [readBlob, ok, Bool.false_eq_true, if_false, readUint_complete _ ok enough, false_or,
      read]
    rw [← announced, ← body]
    have nonempty : announced width parser.input ≠ 0 := by
      intro empty
      rw [empty, List.take_zero, writeAt, if_pos (by simpa using inside)] at outside
      cases outside
    simp only [nonempty, if_false, outside, Option.bind_eq_bind, Option.bind_none]
  · rw [available, if_neg enough, writeAt, if_pos (by simpa using inside)] at outside
    cases outside

theorem readStr_complete {after : List UInt8} (stage : String) (ok : parser.failed = false)
    (complete : Complete width parser.input)
    (written : writeAt memory offset (terminated width parser.input) = some after) :
    parser.readStr width memory offset stage = some (announced width parser.input + 1, after,
      { parser with input := behind width parser.input }) := by
  rw [terminated, if_pos complete] at written
  obtain ⟨middle, first, second⟩ := writeAt_append written
  rw [available_length complete] at second
  simp only [readStr, ok, Bool.false_eq_true, if_false, readBlob_complete ok complete first,
    Option.bind_eq_bind, Option.bind_some, second]
  rfl

theorem readStr_incomplete {after : List UInt8} (stage : String) (ok : parser.failed = false)
    (incomplete : ¬ Complete width parser.input)
    (written : writeAt memory offset (terminated width parser.input) = some after) :
    ∃ final, parser.readStr width memory offset stage = some (0, after, final) ∧
      final.failed = true ∧ parser.SameBuffers final := by
  rw [terminated, if_neg incomplete] at written
  obtain ⟨final, blob, failed, same⟩ := readBlob_incomplete stage ok incomplete written
  refine ⟨final, ?_, failed, same⟩
  simp only [readStr, ok, Bool.false_eq_true, if_false, blob, Option.bind_eq_bind, Option.bind_some,
    failed, if_true]
  rfl

theorem readStr_fault (ok : parser.failed = false)
    (outside : writeAt memory offset (terminated width parser.input) = none)
    (inside : offset ≤ memory.length) : parser.readStr width memory offset stage = none := by
  cases first : writeAt memory offset (available width parser.input) with
  | none =>
      simp only [readStr, ok, Bool.false_eq_true, if_false, readBlob_fault ok first inside,
        Option.bind_eq_bind, Option.bind_none]
  | some middle =>
      by_cases complete : Complete width parser.input
      · have length := writeAt_length first
        have last : writeAt middle (offset + announced width parser.input) [0] = none := by
          apply writeAt_eq_none
          rw [terminated, if_pos complete] at outside
          by_contra fits
          obtain ⟨after, written⟩ := writeAt_exists memory offset
            (available width parser.input ++ [0])
            (by rw [List.length_append, available_length complete, ← length]; omega)
          rw [outside] at written
          cases written
        simp only [readStr, ok, Bool.false_eq_true, if_false, readBlob_complete ok complete first,
          Option.bind_eq_bind, Option.bind_some, last, Option.bind_none]
      · rw [terminated, if_neg complete, first] at outside
        cases outside

theorem readArgs_eq {version : Version} {argtype : Nat} {first : Parser}
    (ok : parser.failed = false)
    (read : parser.readUint 8 "argtype" = (argtype, first)) :
    parser.readArgs version = readArgsFrom version Record.nargs 0 Record.argvalSize
      { first with record.argtype := BitVec.ofNat 64 argtype } := by
  simp only [readArgs, ok, Bool.false_eq_true, if_false, read]

theorem next_eq {version : Version} {timestamp : Nat} {first : Parser}
    (read : parser.cleared.readUint 8 "timestamp" = (timestamp, first)) :
    parser.next version =
      if first.failed then some (none, reset
        { first with record.timestamp := UInt64.ofNat timestamp })
      else (readHeader { first with record.timestamp := UInt64.ofNat timestamp }).bind fun headed =>
        (headed.readArgs version).bind fun final =>
          if final.failed then some (none, final) else some (some final.formatData, final) := by
  simp only [next, read]
  rfl

/-- The parser behind the timestamp. -/
def stamped (parser : Parser) : Parser :=
  { parser.cleared with
    input := parser.input.drop 8
    record.timestamp := UInt64.ofNat (announced 8 parser.input) }

theorem next_stamped (version : Version) (ok : parser.failed = false)
    (enough : 8 ≤ parser.input.length) :
    parser.next version = parser.stamped.readHeader.bind fun headed =>
      (headed.readArgs version).bind fun final =>
        if final.failed then some (none, final) else some (some final.formatData, final) := by
  rw [next_eq (@readUint_complete parser.cleared 8 "timestamp" ok enough)]
  exact if_neg (by rw [show parser.cleared.failed = false from ok]; decide)

/-- Where not even the timestamp is left `next` returns null without an error. -/
theorem next_short (version : Version) (ok : parser.failed = false)
    (short : parser.input.length < 8) :
    ∃ after, parser.next version = some (none, after) ∧ after.failed = false ∧
      after.input = [] := by
  obtain ⟨after, read, failed, -, emptied⟩ := @readUint_short parser.cleared 8 "timestamp" ok short
  refine ⟨reset { after with record.timestamp := UInt64.ofNat (leValue parser.input) }, ?_, rfl,
    emptied⟩
  rw [next_eq read, if_pos failed]
  rfl

end Parser

end Hogl.Raw
