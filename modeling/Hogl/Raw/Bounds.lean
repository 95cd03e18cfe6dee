import Hogl.Raw.Arguments

namespace Hogl.Raw

open Hogl.Data

/-! # The memory the parser touches

The names fit their buffers whatever the input says; the arguments fit the
record buffer only if the input is well behaved. -/

/-- The input behind a name that the parser accepts. -/
def nameEnd (input : List UInt8) : Option (List UInt8) :=
  if Complete 1 input ∧ validName (available 1 input) = true then some (behind 1 input) else none

/-- The input behind a word. -/
def wordEnd (width : Nat) (input : List UInt8) : Option (List UInt8) :=
  if width ≤ input.length then some (input.drop width) else none

/-- The input behind the sequence number and the names of a record. -/
def headerEnd (input : List UInt8) : Option (List UInt8) := do
  let input ← wordEnd 8 input
  let input ← nameEnd input
  let input ← nameEnd input
  nameEnd input

/-- The type word and the input behind it, if the parser gets that far. -/
def argSection (input : List UInt8) : Option (BitVec 64 × List UInt8) := do
  let input ← wordEnd 8 input
  let input ← headerEnd input
  let rest ← wordEnd 8 input
  return (BitVec.ofNat 64 (announced 8 input), rest)

/-- The type of an argument in a type word. -/
def typeIn (argtype : BitVec 64) (index : Nat) : ArgType := .ofNibble (nibble argtype index)

/-- The bytes stored behind the value slots: those the input has of every
string and block, and a terminator for every complete string.  The first
argument that is cut off is the last one. -/
def storage (version : Version) (argtype : BitVec 64) : Nat → Nat → List UInt8 → Nat
  | 0, _, _ => 0
  | count + 1, index, input =>
      if typeIn argtype index = .none then 0
      else
        let field := Field.ofType version (typeIn argtype index)
        (field.stored input).length +
          if field.Whole input then storage version argtype count (index + 1) (field.rest input)
            else 0

/-- What the input asks the parser to store fits a record of that size. -/
def ArgsFit (version : Version) (maxRecordSize : Nat) (input : List UInt8) : Prop :=
  ∀ argtype rest, argSection input = some (argtype, rest) →
    Record.byteSize + storage version argtype Record.nargs 0 rest ≤ maxRecordSize

namespace Parser

variable {version : Version} {parser : Parser} {index offset maxRecordSize : Nat}

/-! ## Names -/

theorem cstring_terminated (name rest : List UInt8) :
    cstring (name ++ 0 :: rest) = cstring name := by
  induction name with
  | nil => rfl
  | cons byte name ih =>
      simp only [cstring, List.cons_append, List.takeWhile_cons] at ih ⊢
      split
      · rw [ih]
      · rfl

/-- A complete name is the C string of its buffer. -/
theorem cstring_stored {buffer after : List UInt8} (complete : Complete 1 parser.input)
    (written : writeAt buffer 0 (terminated 1 parser.input) = some after) :
    cstring after = cstring (available 1 parser.input) := by
  rw [writeAt, if_pos (writeAt_inside written), terminated, if_pos complete,
    Option.some.injEq] at written
  rw [← written]
  simp only [List.take_zero, List.nil_append, List.append_assoc, List.singleton_append]
  exact cstring_terminated _ _

/-- What a parser that has not failed still has to read. -/
def remaining (parser : Parser) : Option (List UInt8) :=
  if parser.failed then none else some parser.input

theorem remaining_ok (ok : parser.failed = false) : parser.remaining = some parser.input := by
  simp [remaining, ok]

theorem remaining_failed (failed : parser.failed = true) : parser.remaining = none := by
  simp [remaining, failed]

theorem failed_eq_true_iff : parser.failed = true ↔ parser.remaining = none := by
  cases failed : parser.failed <;> simp [remaining, failed]

/-- A name fits its buffer, complete or not. -/
theorem readName_spec (parser : Parser) (buffer : List UInt8) (stage : String)
    (size : buffer.length = maxNameLen) :
    ∃ after final, parser.readName buffer stage = some (after, final) ∧
      after.length = maxNameLen ∧ parser.SameBuffers final ∧
      final.remaining = parser.remaining.bind nameEnd := by
  cases failed : parser.failed with
  | true =>
      refine ⟨buffer, parser, ?_, size, ⟨rfl, rfl, rfl, rfl⟩, by rw [remaining_failed failed]; rfl⟩
      simp only [readName, readStr_failed failed, Option.bind_eq_bind, Option.bind_some, failed,
        if_true]
      rfl
  | false =>
      have bound := announced_lt 1 parser.input
      have short : (available 1 parser.input).length ≤ announced 1 parser.input := by
        rw [available]
        split
        · rw [List.length_take]
          omega
        · exact Nat.zero_le _
      have stored : (terminated 1 parser.input).length ≤ 256 := by
        rw [terminated]
        split
        · rw [List.length_append, List.length_singleton]
          omega
        · omega
      obtain ⟨after, written⟩ := writeAt_exists buffer 0 (terminated 1 parser.input)
        (by rw [size, maxNameLen]; omega)
      have length : after.length = maxNameLen := (writeAt_length written).trans size
      rw [remaining_ok failed, Option.bind_some]
      by_cases complete : Complete 1 parser.input
      · have read := readStr_complete stage failed complete written
        have valid : validName after = validName (available 1 parser.input) := by
          simp only [validName, cstring_stored complete written]
        by_cases accepted : validName (available 1 parser.input) = true
        · refine ⟨after, { parser with input := behind 1 parser.input }, ?_, length,
            ⟨rfl, rfl, rfl, rfl⟩, ?_⟩
          · simp only [readName, read, Option.bind_eq_bind, Option.bind_some, failed, valid,
              accepted]
            rfl
          · rw [nameEnd, if_pos ⟨complete, accepted⟩]
            exact remaining_ok failed
        · refine ⟨after, fail { parser with input := behind 1 parser.input }
            "format: failed to validate name @" stage, ?_, length, ⟨rfl, rfl, rfl, rfl⟩, ?_⟩
          · simp only [readName, read, Option.bind_eq_bind, Option.bind_some, failed, valid,
              accepted]
            rfl
          · rw [nameEnd, if_neg fun both => accepted both.2]
            rfl
      · obtain ⟨final, read, stopped, same⟩ :=
          readStr_incomplete stage failed complete written
        refine ⟨after, final, ?_, length, same, ?_⟩
        · simp only [readName, read, Option.bind_eq_bind, Option.bind_some, stopped, if_true]
          rfl
        · rw [nameEnd, if_neg fun both => complete both.1]
          exact remaining_failed stopped

theorem readUint_spec (parser : Parser) (width : Nat) (stage : String) :
    parser.SameBuffers (parser.readUint width stage).2 ∧
      (parser.readUint width stage).2.remaining = parser.remaining.bind (wordEnd width) := by
  cases failed : parser.failed with
  | true =>
      rw [readUint_failed failed, remaining_failed failed]
      exact ⟨⟨rfl, rfl, rfl, rfl⟩, rfl⟩
  | false =>
      rw [remaining_ok failed, Option.bind_some, wordEnd]
      by_cases enough : width ≤ parser.input.length
      · rw [readUint_complete _ failed enough, if_pos enough]
        exact ⟨⟨rfl, rfl, rfl, rfl⟩, remaining_ok failed⟩
      · obtain ⟨after, read, stopped, same, -⟩ := readUint_short stage failed
          (Nat.lt_of_not_le enough)
        rw [read, if_neg enough]
        exact ⟨same, remaining_failed stopped⟩

/-- The header is read without a store outside the name buffers. -/
theorem readHeader_spec (ready : parser.Ready maxRecordSize) :
    ∃ after, parser.readHeader = some after ∧ after.Ready maxRecordSize ∧
      after.remaining = parser.remaining.bind headerEnd := by
  obtain ⟨same, left⟩ := readUint_spec parser 8 "seqnum"
  rcases read : parser.readUint 8 "seqnum" with ⟨seqnum, first⟩
  rw [read] at same left
  simp only at same left
  have firstLeft : remaining { first with record.seqnum := BitVec.ofNat 52 seqnum } =
      parser.remaining.bind (wordEnd 8) := left
  obtain ⟨ringName, second, ring, ringSize, ringSame, ringLeft⟩ := readName_spec
    { first with record.seqnum := BitVec.ofNat 52 seqnum } first.ringName "ring-name"
    (by rw [same.ringName, ready.ringName])
  obtain ⟨areaName, third, area, areaSize, areaSame, areaLeft⟩ := readName_spec
    { second with ringName } second.areaName "area-name"
    (by rw [ringSame.areaName, same.areaName, ready.areaName])
  obtain ⟨sectionName, fourth, section_, sectionSize, sectionSame, sectionLeft⟩ := readName_spec
    { third with areaName } third.sectionName "section-name"
    (by rw [areaSame.sectionName, ringSame.sectionName, same.sectionName, ready.sectionName])
  refine ⟨{ fourth with sectionName }, ?_, ⟨?_, ?_, ?_, sectionSize⟩, ?_⟩
  · simp only [readHeader, read, ring, area, section_, Option.bind_eq_bind, Option.bind_some]
    rfl
  · change fourth.record.argval.length = _
    rw [sectionSame.record, areaSame.record, ringSame.record, same.record, ready.argval]
  · change fourth.ringName.length = _
    rw [sectionSame.ringName, areaSame.ringName]
    exact ringSize
  · change fourth.areaName.length = _
    rw [sectionSame.areaName]
    exact areaSize
  · change fourth.remaining = _
    rw [sectionLeft]
    change third.remaining.bind nameEnd = _
    rw [areaLeft]
    change (second.remaining.bind nameEnd).bind nameEnd = _
    rw [ringLeft, firstLeft]
    cases parser.remaining with
    | none => rfl
    | some input => simp [headerEnd, Option.bind_assoc]

/-! ## Arguments -/

/-- Two parsers with buffers of the same size. -/
structure SameSizes (before after : Parser) : Prop where
  argval : after.record.argval.length = before.record.argval.length
  ringName : after.ringName = before.ringName
  areaName : after.areaName = before.areaName
  sectionName : after.sectionName = before.sectionName

/-- The loop runs to its end exactly when everything it stores fits. -/
theorem readArgsFrom_spec (version : Version) (parser : Parser) (argtype : BitVec 64) {count : Nat}
    (ok : parser.failed = false)
    (range : index + count = Record.nargs) (place : Record.argvalSize ≤ offset)
    (room : offset ≤ parser.record.argval.length) (small : parser.record.argval.length < 2 ^ 32)
    (types : ∀ position, index ≤ position → position < Record.nargs →
      parser.record.getArgType position = typeIn argtype position) :
    (offset + storage version argtype count index parser.input ≤ parser.record.argval.length →
      ∃ after, readArgsFrom version count index offset parser = some after ∧
        parser.SameSizes after) ∧
    (parser.record.argval.length < offset + storage version argtype count index parser.input →
      readArgsFrom version count index offset parser = none) := by
  induction count generalizing index offset parser with
  | zero =>
      refine ⟨fun _ => ⟨parser, rfl, rfl, rfl, rfl, rfl⟩, fun tight => ?_⟩
      rw [storage] at tight
      omega
  | succ count ih =>
      have inside : index < Record.nargs := by omega
      have type := types index (Nat.le_refl _) inside
      by_cases unset : typeIn argtype index = .none
      · rw [storage, if_pos unset]
        refine ⟨fun _ => ⟨parser, ?_, rfl, rfl, rfl, rfl⟩, fun tight => by omega⟩
        simp [readArgsFrom, type, unset]
      · have set : parser.record.getArgType index ≠ .none := by rwa [type]
        have enter : readArgsFrom version (count + 1) index offset parser =
            (parser.readArg version index offset).bind fun result =>
              readArgsFrom version count (index + 1) result.1 result.2 := by
          simp only [readArgsFrom, ok, set, Bool.false_eq_true, or_self, if_false]
          rfl
        generalize fieldEq : Field.ofType version (parser.record.getArgType index) = field
        have needs : storage version argtype (count + 1) index parser.input =
            (field.stored parser.input).length + if field.Whole parser.input then
              storage version argtype count (index + 1) (field.rest parser.input) else 0 := by
          rw [storage, if_neg unset, ← type, fieldEq]
        cases written : writeAt parser.record.argval offset (field.stored parser.input) with
        | none =>
            have tight : parser.record.argval.length <
                offset + (field.stored parser.input).length := by
              by_contra fits
              obtain ⟨after, stored⟩ := writeAt_exists parser.record.argval offset
                (field.stored parser.input) (by omega)
              rw [written] at stored
              cases stored
            refine ⟨fun fits => by omega, fun _ => ?_⟩
            rw [enter, readArg_fault ok room (by rw [fieldEq]; exact written)]
            rfl
        | some argval =>
            have stored := writeAt_inside written
            by_cases whole : field.Whole parser.input
            · obtain ⟨after, read, done⟩ := readArg_whole ok inside place small set
                (by rw [fieldEq]; exact whole) (by rw [fieldEq]; exact written)
              rw [fieldEq] at read
              have onward := @ih (index + 1) (offset + (field.stored parser.input).length) after
                done.ok (by omega) (by omega) (by rw [done.length]; exact stored)
                (by rw [done.length]; exact small) (fun position lower upper => by
                  rw [done.others position upper (by omega)]
                  exact types position (by omega) upper)
              rw [done.length, done.input, fieldEq] at onward
              rw [needs, if_pos whole, ← Nat.add_assoc, enter, read, Option.bind_some]
              refine ⟨fun fits => ?_, onward.2⟩
              obtain ⟨final, finished, sizes⟩ := onward.1 fits
              exact ⟨final, finished, sizes.argval.trans done.length,
                sizes.ringName.trans done.ringName, sizes.areaName.trans done.areaName,
                sizes.sectionName.trans done.sectionName⟩
            · obtain ⟨next, after, read, failed, ring, area, name, length⟩ :=
                readArg_partial ok inside place small set (by rw [fieldEq]; exact whole)
                  (by rw [fieldEq]; exact written)
              rw [needs, if_neg whole]
              refine ⟨fun _ => ⟨after, ?_, length, ring, area, name⟩, fun tight => by omega⟩
              rw [enter, read, Option.bind_some]
              cases count <;> simp [readArgsFrom, failed]

theorem readArgs_failed (failed : parser.failed = true) :
    parser.readArgs version = some parser := by
  simp [readArgs, failed]

/-- All the argument reads together, on a parser that has not failed. -/
theorem readArgs_spec (version : Version) (ready : parser.Ready maxRecordSize)
    (least : Record.byteSize ≤ maxRecordSize)
    (most : maxRecordSize < 2 ^ 32) (ok : parser.failed = false) :
    ((∀ rest, wordEnd 8 parser.input = some rest → Record.byteSize + storage version
        (BitVec.ofNat 64 (announced 8 parser.input)) Record.nargs 0 rest ≤ maxRecordSize) →
      ∃ after, parser.readArgs version = some after ∧ after.Ready maxRecordSize) ∧
    (∀ rest, wordEnd 8 parser.input = some rest → maxRecordSize < Record.byteSize + storage version
        (BitVec.ofNat 64 (announced 8 parser.input)) Record.nargs 0 rest →
      parser.readArgs version = none) := by
  have size := ready.argval
  simp only [Record.byteSize, Record.headerSize, Record.argvalSize] at least size ⊢
  by_cases enough : 8 ≤ parser.input.length
  · have unfolded : parser.readArgs version = readArgsFrom version Record.nargs 0 Record.argvalSize
        { parser with
          input := parser.input.drop 8
          record.argtype := BitVec.ofNat 64 (announced 8 parser.input) } := by
      exact readArgs_eq ok (readUint_complete _ ok enough)
    have room : Record.argvalSize ≤ parser.record.argval.length := by
      rw [Record.argvalSize]
      omega
    obtain ⟨fits, overruns⟩ := readArgsFrom_spec version
      { parser with
        input := parser.input.drop 8
        record.argtype := BitVec.ofNat 64 (announced 8 parser.input) }
      (BitVec.ofNat 64 (announced 8 parser.input)) ok (Nat.zero_add _) (Nat.le_refl _) room
      (by change parser.record.argval.length < 2 ^ 32; omega) (fun _ _ _ => rfl)
    simp only [Record.argvalSize] at fits overruns
    rw [unfolded, wordEnd, if_pos enough]
    constructor
    · intro bound
      have total := bound _ rfl
      obtain ⟨after, finished, sizes⟩ := fits (by omega)
      exact ⟨after, finished, sizes.argval.trans size, sizes.ringName ▸ ready.ringName,
        sizes.areaName ▸ ready.areaName, sizes.sectionName ▸ ready.sectionName⟩
    · rintro rest ⟨⟩ tight
      exact overruns (by omega)
  · rw [wordEnd, if_neg enough]
    obtain ⟨after, read, failed, same, -⟩ := readUint_short "argtype" ok (Nat.lt_of_not_le enough)
    refine ⟨fun _ => ?_, fun rest absent => by cases absent⟩
    refine ⟨{ after with record.argtype := BitVec.ofNat 64 (leValue parser.input) }, ?_, ?_⟩
    · rw [readArgs_eq ok read]
      simp [Record.nargs, readArgsFrom, failed]
    · refine ⟨?_, ?_, ?_, ?_⟩
      · change after.record.argval.length = _
        rw [same.record, ready.argval]
      · exact same.ringName ▸ ready.ringName
      · exact same.areaName ▸ ready.areaName
      · exact same.sectionName ▸ ready.sectionName

/-! ## Calls of `next` -/

/-- One call: its buffers keep their sizes, or a store has left them. -/
theorem next_spec (version : Version) (ready : parser.Ready maxRecordSize)
    (least : Record.byteSize ≤ maxRecordSize)
    (most : maxRecordSize < 2 ^ 32) :
    (parser.failed = true ∨ ArgsFit version maxRecordSize parser.input →
      ∃ result after, parser.next version = some (result, after) ∧ after.Ready maxRecordSize) ∧
    (parser.failed = false → ¬ ArgsFit version maxRecordSize parser.input →
      parser.next version = none) := by
  obtain ⟨same, left⟩ := readUint_spec parser.cleared 8 "timestamp"
  rcases read : parser.cleared.readUint 8 "timestamp" with ⟨timestamp, first⟩
  rw [read] at same left
  simp only at same left
  let stamped : Parser := { first with record.timestamp := UInt64.ofNat timestamp }
  have stampedReady : stamped.Ready maxRecordSize := by
    refine ⟨?_, same.ringName ▸ ready.ringName, same.areaName ▸ ready.areaName,
      same.sectionName ▸ ready.sectionName⟩
    change first.record.argval.length = _
    rw [same.record]
    exact ready.argval
  have stampedLeft : stamped.remaining = parser.remaining.bind (wordEnd 8) := left
  rw [next_eq read]
  change (_ → ∃ result after, (if stamped.failed then some (none, stamped.reset)
      else stamped.readHeader.bind _) = _ ∧ _) ∧ (_ → _ → (if stamped.failed then
        some (none, stamped.reset) else stamped.readHeader.bind _) = none)
  cases stopped : stamped.failed with
  | true =>
      rw [failed_eq_true_iff, stampedLeft] at stopped
      refine ⟨fun _ => ⟨none, stamped.reset, rfl, ⟨stampedReady.argval, stampedReady.ringName,
        stampedReady.areaName, stampedReady.sectionName⟩⟩, fun ok misfit => ?_⟩
      rw [remaining_ok ok, Option.bind_some] at stopped
      refine absurd (fun argtype rest found => ?_) misfit
      simp [argSection, stopped] at found
  | false =>
      have ok : parser.failed = false := by
        cases failed : parser.failed with
        | false => rfl
        | true =>
            rw [remaining_failed failed, Option.bind_none, ← failed_eq_true_iff, stopped]
              at stampedLeft
            cases stampedLeft
      obtain ⟨headed, header, headedReady, headedLeft⟩ := readHeader_spec stampedReady
      rw [stampedLeft, remaining_ok ok, Option.bind_some] at headedLeft
      rw [header]
      simp only [Bool.false_eq_true, if_false, Option.bind_some, ok, false_or, true_implies]
      have finish : ∀ {final : Parser}, headed.readArgs version = some final →
          final.Ready maxRecordSize → ∃ result after,
            ((headed.readArgs version).bind fun final => if final.failed then some (none, final)
              else some (some final.formatData, final)) = some (result, after) ∧
            after.Ready maxRecordSize := by
        intro final finished finalReady
        rw [finished, Option.bind_some]
        split
        · exact ⟨none, final, rfl, finalReady⟩
        · exact ⟨some final.formatData, final, rfl, finalReady⟩
      cases halted : headed.failed with
      | true =>
          refine ⟨fun _ => finish (readArgs_failed halted) headedReady, fun misfit => ?_⟩
          rw [failed_eq_true_iff, headedLeft] at halted
          refine absurd (fun argtype rest found => ?_) misfit
          cases first : wordEnd 8 parser.input with
          | none => simp [argSection, first] at found
          | some input =>
              rw [first, Option.bind_some] at halted
              simp [argSection, first, halted] at found
      | false =>
          rw [remaining_ok halted] at headedLeft
          obtain ⟨fits, overruns⟩ := readArgs_spec version headedReady least most halted
          have sectionEq : argSection parser.input = (wordEnd 8 headed.input).bind fun rest =>
              some (BitVec.ofNat 64 (announced 8 headed.input), rest) := by
            cases first : wordEnd 8 parser.input with
            | none => rw [first] at headedLeft; cases headedLeft
            | some input =>
                rw [first, Option.bind_some] at headedLeft
                simp only [argSection, first, ← headedLeft, Option.bind_eq_bind, Option.bind_some]
                rfl
          constructor
          · intro fit
            obtain ⟨final, finished, finalReady⟩ := fits (fun rest found => fit _ rest (by
              rw [sectionEq, found]
              rfl))
            exact finish finished finalReady
          · intro misfit
            simp only [ArgsFit, sectionEq] at misfit
            push Not at misfit
            obtain ⟨argtype, rest, found, tight⟩ := misfit
            obtain ⟨rest', word, pair⟩ := Option.bind_eq_some_iff.mp found
            simp only [Option.some.injEq, Prod.mk.injEq] at pair
            obtain ⟨rfl, rfl⟩ := pair
            rw [overruns rest' word tight]
            rfl

/-- A parser over any input, after any number of calls. -/
inductive Reached (version : Version) (maxRecordSize : Nat) : Parser → Prop where
  | constructed {parser : Parser} (ready : parser.Ready maxRecordSize)
      (ok : parser.failed = false) : Reached version maxRecordSize parser
  | called {parser after : Parser} {result : Option FormatData}
      (reached : Reached version maxRecordSize parser)
      (done : parser.next version = some (result, after)) : Reached version maxRecordSize after

theorem Reached.ready (reached : Reached version maxRecordSize parser)
    (least : Record.byteSize ≤ maxRecordSize) (most : maxRecordSize < 2 ^ 32) :
    parser.Ready maxRecordSize := by
  induction reached with
  | constructed ready _ => exact ready
  | @called parser after result _ done ready =>
      obtain ⟨fits, overruns⟩ := next_spec version ready least most
      have fit : parser.failed = true ∨ ArgsFit version maxRecordSize parser.input := by
        by_contra misfit
        push Not at misfit
        rw [overruns (by simpa using misfit.1) misfit.2] at done
        cases done
      obtain ⟨result', after', done', readyAfter⟩ := fits fit
      rw [done, Option.some.injEq, Prod.mk.injEq] at done'
      rw [done'.2]
      exact readyAfter

/-- Every call of `next` in every run keeps to its buffers exactly when it
starts in the failed state or the strings and blocks of its input fit. -/
theorem next_in_bounds_iff (least : Record.byteSize ≤ maxRecordSize) (most : maxRecordSize < 2 ^ 32)
    (reached : Reached version maxRecordSize parser) :
    (parser.next version).isSome = true ↔
      parser.failed = true ∨ ArgsFit version maxRecordSize parser.input := by
  obtain ⟨fits, overruns⟩ := next_spec version (reached.ready least most) least most
  constructor
  · intro returned
    by_contra misfit
    push Not at misfit
    rw [overruns (by simpa using misfit.1) misfit.2] at returned
    cases returned
  · intro fit
    obtain ⟨result, after, done, -⟩ := fits fit
    rw [done]
    rfl

/-- A record with one block of one byte, which no record of minimal size holds. -/
def oneByteBlock : List UInt8 :=
  leBytes 8 1 ++ leBytes 8 0 ++ (2 :: ascii "R1") ++ (2 :: ascii "A1") ++ (2 :: ascii "S1") ++
    leBytes 8 10 ++ leBytes 4 1 ++ [0x55]

def blankParser (maxRecordSize : Nat) (input : List UInt8) : Parser :=
  { input, failed := false, error := ""
    record := { area := none, timestamp := 0, seqnum := 0, sect := 0, argtype := 0,
                argval := List.replicate (maxRecordSize - Record.headerSize) 0 }
    ringName := List.replicate maxNameLen 0
    areaName := List.replicate maxNameLen 0
    sectionName := List.replicate maxNameLen 0 }

theorem blankParser_ready (maxRecordSize : Nat) (input : List UInt8) :
    (blankParser maxRecordSize input).Ready maxRecordSize :=
  ⟨List.length_replicate, List.length_replicate, List.length_replicate, List.length_replicate⟩

theorem next_in_bounds_one_byte : ((blankParser 161 oneByteBlock).next .v1_1).isSome = true :=
  (next_in_bounds_iff (by decide) (by decide)
    (.constructed (blankParser_ready 161 oneByteBlock) rfl)).mpr (.inr (by
      intro argtype rest found
      have here : argSection oneByteBlock = some (10, leBytes 4 1 ++ [0x55]) := by decide
      rw [show (blankParser 161 oneByteBlock).input = oneByteBlock from rfl, here] at found
      cases found
      decide))

/-- The block is stored behind the end of a record buffer of minimal size. -/
theorem next_overruns_one_byte : ¬ ∀ (version : Version) (maxRecordSize : Nat) (parser : Parser),
    Record.byteSize ≤ maxRecordSize → maxRecordSize < 2 ^ 32 →
      Reached version maxRecordSize parser → (parser.next version).isSome = true := by
  intro bounded
  have returned := bounded .v1_1 160 (blankParser 160 oneByteBlock) (by decide) (by decide)
    (.constructed (blankParser_ready 160 oneByteBlock) rfl)
  rw [(next_spec _ (blankParser_ready 160 oneByteBlock) (by decide) (by decide)).2 rfl] at returned
  · cases returned
  · intro fit
    have here : argSection oneByteBlock = some (10, leBytes 4 1 ++ [0x55]) := by decide
    have bound := fit _ _ here
    revert bound
    decide

end Parser

end Hogl.Raw
