import Hogl.Raw.Bounds

namespace Hogl.Raw

open Hogl.Data

/-! # How a call of `next` ends

A call on a parser without errors does one of five things, and the bytes of
its input alone say which. -/

/-- The input behind the arguments. -/
def argsEnd (version : Version) (argtype : BitVec 64) :
    Nat → Nat → List UInt8 → Option (List UInt8)
  | 0, _, input => some input
  | count + 1, index, input =>
      if typeIn argtype index = .none then some input
      else
        let field := Field.ofType version (typeIn argtype index)
        if field.Whole input then argsEnd version argtype count (index + 1) (field.rest input)
        else none

/-- The input behind a whole record. -/
def recordEnd (version : Version) (input : List UInt8) : Option (List UInt8) := do
  let (argtype, rest) ← argSection input
  argsEnd version argtype Record.nargs 0 rest

/-- The first of the names that is not accepted has all its bytes. -/
def invalidNames : Nat → List UInt8 → Bool
  | 0, _ => false
  | count + 1, input =>
      match nameEnd input with
      | some rest => invalidNames count rest
      | none => decide (Complete 1 input)

def invalidHeader (input : List UInt8) : Bool :=
  match wordEnd 8 input with
  | some rest => invalidNames 3 rest
  | none => false

/-- The parser gets to a name that is complete but not one it accepts. -/
def invalidName (input : List UInt8) : Bool :=
  match wordEnd 8 input with
  | some rest => invalidHeader rest
  | none => false

/-- The arguments take more than the record buffer has. -/
def overruns (version : Version) (maxRecordSize : Nat) (input : List UInt8) : Bool :=
  match argSection input with
  | some (argtype, rest) =>
      decide (maxRecordSize < Record.byteSize + storage version argtype Record.nargs 0 rest)
  | none => false

inductive Reading where
  | record (rest : List UInt8)
  | ended
  | invalid
  | cut
  | overrun
deriving Repr, DecidableEq

def reading (version : Version) (maxRecordSize : Nat) (input : List UInt8) : Reading :=
  if input.length < 8 then .ended
  else if overruns version maxRecordSize input then .overrun
  else
    match recordEnd version input with
    | some rest => .record rest
    | none => if invalidName input then .invalid else .cut

theorem overruns_eq_false_iff {version : Version} {maxRecordSize : Nat} {input : List UInt8} :
    overruns version maxRecordSize input = false ↔ ArgsFit version maxRecordSize input := by
  rw [overruns, ArgsFit]
  cases found : argSection input with
  | none => simp
  | some pair =>
      obtain ⟨argtype, rest⟩ := pair
      simp only [decide_eq_false_iff_not, Nat.not_lt, Option.some.injEq, Prod.mk.injEq, and_imp]
      constructor
      · rintro fits _ _ rfl rfl
        exact fits
      · exact fun fits => fits argtype rest rfl rfl

/-! ## What is left of the input -/

theorem rest_suffix (field : Field) (input : List UInt8) : field.rest input <:+ input := by
  cases field with
  | text => exact (List.drop_suffix _ _).trans (List.drop_suffix _ _)
  | block width => exact (List.drop_suffix _ _).trans (List.drop_suffix _ _)
  | word width => exact List.drop_suffix _ _

theorem argsEnd_suffix {version : Version} {argtype : BitVec 64} {count index : Nat}
    {input rest : List UInt8} (found : argsEnd version argtype count index input = some rest) :
    rest <:+ input := by
  induction count generalizing index input with
  | zero =>
      cases found
      exact List.suffix_refl _
  | succ count ih =>
      rw [argsEnd] at found
      split at found
      · cases found
        exact List.suffix_refl _
      · simp only at found
        split at found
        · exact (ih found).trans (rest_suffix _ _)
        · cases found

theorem wordEnd_eq_some {width : Nat} {input rest : List UInt8}
    (found : wordEnd width input = some rest) : width ≤ input.length ∧ rest = input.drop width := by
  rw [wordEnd] at found
  split at found
  · cases found
    exact ⟨by assumption, rfl⟩
  · cases found

theorem nameEnd_suffix {input rest : List UInt8} (found : nameEnd input = some rest) :
    rest <:+ input := by
  rw [nameEnd] at found
  split at found
  · cases found
    exact (List.drop_suffix _ _).trans (List.drop_suffix _ _)
  · cases found

theorem headerEnd_suffix {input rest : List UInt8} (found : headerEnd input = some rest) :
    rest <:+ input := by
  simp only [headerEnd, Option.bind_eq_bind, Option.bind_eq_some_iff] at found
  obtain ⟨first, word, second, ring, third, area, sect⟩ := found
  obtain ⟨-, rfl⟩ := wordEnd_eq_some word
  exact (nameEnd_suffix sect).trans ((nameEnd_suffix area).trans
    ((nameEnd_suffix ring).trans (List.drop_suffix _ _)))

theorem reading_eq_record {version : Version} {maxRecordSize : Nat} {input rest : List UInt8}
    (read : reading version maxRecordSize input = .record rest) :
    ArgsFit version maxRecordSize input ∧ recordEnd version input = some rest := by
  rw [reading] at read
  split at read
  · cases read
  split at read
  · cases read
  rename_i fits
  refine ⟨overruns_eq_false_iff.mp (Bool.eq_false_iff.mpr fits), ?_⟩
  cases found : recordEnd version input with
  | none =>
      simp only [found] at read
      split at read <;> cases read
  | some left =>
      simp only [found, Reading.record.injEq] at read
      rw [read]

/-- A record is a piece at the start of the input that is not empty. -/
theorem reading_record {version : Version} {maxRecordSize : Nat} {input rest : List UInt8}
    (read : reading version maxRecordSize input = .record rest) :
    rest <:+ input ∧ rest.length < input.length := by
  have found := (reading_eq_record read).2
  simp only [recordEnd, argSection, Option.bind_eq_bind, Option.bind_eq_some_iff,
    Option.pure_def, Option.some.injEq] at found
  obtain ⟨⟨argtype, body⟩, ⟨first, word, second, header, third, types, pair⟩, args⟩ := found
  cases pair
  obtain ⟨long, rfl⟩ := wordEnd_eq_some word
  obtain ⟨-, rfl⟩ := wordEnd_eq_some types
  have inside := (argsEnd_suffix args).trans ((List.drop_suffix _ _).trans
    (headerEnd_suffix header))
  refine ⟨inside.trans (List.drop_suffix _ _), ?_⟩
  have shorter := inside.length_le
  rw [List.length_drop] at shorter
  omega

theorem headerEnd_of_invalid {input : List UInt8} (invalid : invalidHeader input = true) :
    headerEnd input = none := by
  rw [invalidHeader] at invalid
  cases word : wordEnd 8 input with
  | none =>
      rw [word] at invalid
      cases invalid
  | some first =>
      simp only [word, invalidNames] at invalid
      simp only [headerEnd, word, Option.bind_eq_bind, Option.bind_some]
      cases ring : nameEnd first with
      | none => rfl
      | some second =>
          simp only [ring] at invalid
          rw [Option.bind_some]
          cases area : nameEnd second with
          | none => rfl
          | some third =>
              simp only [area] at invalid
              rw [Option.bind_some]
              cases sect : nameEnd third with
              | none => rfl
              | some rest =>
                  simp only [sect] at invalid
                  cases invalid

theorem reading_eq_invalid_iff {version : Version} {maxRecordSize : Nat} {input : List UInt8} :
    reading version maxRecordSize input = .invalid ↔ invalidName input = true := by
  constructor
  · intro read
    rw [reading] at read
    split at read
    · cases read
    split at read
    · cases read
    split at read
    · cases read
    split at read
    · assumption
    · cases read
  · intro invalid
    rw [invalidName] at invalid
    cases word : wordEnd 8 input with
    | none =>
        rw [word] at invalid
        cases invalid
    | some rest =>
        obtain ⟨long, -⟩ := wordEnd_eq_some word
        simp only [word] at invalid
        have missing : argSection input = none := by
          simp only [argSection, word, headerEnd_of_invalid invalid, Option.bind_eq_bind,
            Option.bind_some, Option.bind_none]
        simp only [reading, Nat.not_lt.mpr long, overruns, recordEnd, missing, invalidName, word,
          invalid, Option.bind_eq_bind, Option.bind_none, if_false, if_true, Bool.false_eq_true]

/-! ## The first error -/

/-- `std::string::find_first_of`. -/
def findFirstOf (text set : String) : Option Nat :=
  text.toList.findIdx? fun char => set.toList.contains char

namespace Parser

variable {version : Version} {parser : Parser} {width index offset maxRecordSize : Nat}
  {stage : String}

/-- The test by which `reprocess` recognises an error of the format. -/
def blamesFormat (parser : Parser) : Bool := findFirstOf parser.error "format:" == some 0

/-- Nothing has gone wrong yet. -/
def Clean (parser : Parser) : Prop := parser.failed = false ∧ parser.error = ""

/-- The input ended too early. -/
def Cut (parser : Parser) : Prop := parser.failed = true ∧ parser.blamesFormat = false

theorem findFirstOf_append {message set : String} (stage : String) (place : Nat)
    (found : findFirstOf message set = some place) :
    findFirstOf (message ++ stage) set = some place := by
  rw [findFirstOf] at found ⊢
  rw [String.toList_append, List.findIdx?_append, found]
  rfl

theorem fail_error {message : String} (silent : parser.error = "") :
    (parser.fail message stage).error = message ++ stage := by
  simp only [fail, silent, String.empty_append]

theorem fail_uint (silent : parser.error = "") :
    (parser.fail "input: failed to read uint @ " stage).Cut := by
  refine ⟨rfl, ?_⟩
  rw [blamesFormat, fail_error silent, findFirstOf_append stage 4 (by decide)]
  rfl

theorem fail_blob (silent : parser.error = "") :
    (parser.fail "input: failed to read blob @ " stage).Cut := by
  refine ⟨rfl, ?_⟩
  rw [blamesFormat, fail_error silent, findFirstOf_append stage 4 (by decide)]
  rfl

theorem fail_name (silent : parser.error = "") :
    (parser.fail "format: failed to validate name @" stage).blamesFormat = true := by
  rw [blamesFormat, fail_error silent, findFirstOf_append stage 0 (by decide)]
  rfl

theorem readUint_cut (stage : String) (clean : parser.Clean) (short : parser.input.length < width) :
    (parser.readUint width stage).2.Cut := by
  simp only [readUint, clean.1, Bool.false_eq_true, if_false, read, Nat.not_le_of_lt short,
    decide_false]
  exact fail_uint clean.2

/-- A block is read without an error exactly when it is complete. -/
theorem readBlob_tells {memory after : List UInt8} {count : Nat} {final : Parser}
    (clean : parser.Clean)
    (read : parser.readBlob width memory offset stage = some (count, after, final)) :
    (final.Clean ∧ Complete width parser.input) ∨ (final.Cut ∧ ¬ Complete width parser.input) := by
  by_cases enough : width ≤ parser.input.length
  · simp only [readBlob, clean.1, Bool.false_eq_true, if_false, readUint_complete _ clean.1 enough,
      false_or, Parser.read] at read
    rw [← announced, ← body] at read
    split at read
    · rename_i empty
      cases read
      exact .inl ⟨⟨rfl, clean.2⟩, enough, by rw [empty]; exact Nat.zero_le _⟩
    · obtain ⟨stored, -, rest⟩ := Option.bind_eq_some_iff.mp read
      by_cases whole : announced width parser.input ≤ (body width parser.input).length
      · simp only [whole, decide_true, if_true] at rest
        cases rest
        exact .inl ⟨⟨rfl, clean.2⟩, enough, whole⟩
      · simp only [whole, decide_false, Bool.false_eq_true, if_false] at rest
        cases rest
        exact .inr ⟨fail_blob clean.2, fun complete => whole complete.2⟩
  · have cut := readUint_cut stage clean (Nat.lt_of_not_le enough)
    simp only [readBlob, clean.1, Bool.false_eq_true, if_false, cut.1, true_or, if_true] at read
    cases read
    exact .inr ⟨cut, fun complete => enough complete.1⟩

theorem readStr_tells {memory after : List UInt8} {count : Nat} {final : Parser}
    (clean : parser.Clean)
    (read : parser.readStr width memory offset stage = some (count, after, final)) :
    (final.Clean ∧ Complete width parser.input) ∨ (final.Cut ∧ ¬ Complete width parser.input) := by
  simp only [readStr, clean.1, Bool.false_eq_true, if_false] at read
  obtain ⟨⟨len, stored, middle⟩, blob, rest⟩ := Option.bind_eq_some_iff.mp read
  rcases readBlob_tells clean blob with ⟨whole, complete⟩ | ⟨cut, incomplete⟩
  · simp only [whole.1, Bool.false_eq_true, if_false] at rest
    obtain ⟨terminated, -, done⟩ := Option.bind_eq_some_iff.mp rest
    cases done
    exact .inl ⟨whole, complete⟩
  · simp only [cut.1, if_true] at rest
    cases rest
    exact .inr ⟨cut, incomplete⟩

/-! ## Names -/

/-- Where a parser stands that has `count` names before it: it reads on, or
it has failed and says whether the name was complete. -/
def Tells (parser : Parser) (count : Nat) (invalid : Bool) : Prop :=
  (parser.Clean ∧ invalidNames count parser.input = invalid) ∨
    (parser.failed = true ∧ parser.blamesFormat = invalid)

theorem readName_tells {buffer after : List UInt8} {final : Parser} {count : Nat} {invalid : Bool}
    (size : buffer.length = maxNameLen)
    (read : parser.readName buffer stage = some (after, final))
    (tells : parser.Tells (count + 1) invalid) : final.Tells count invalid := by
  rcases tells with ⟨clean, names⟩ | ⟨failed, blames⟩
  · obtain ⟨after', final', read', -, -, left⟩ := readName_spec parser buffer stage size
    rw [read] at read'
    cases read'
    rw [remaining_ok clean.1, Option.bind_some] at left
    rw [invalidNames] at names
    obtain ⟨⟨len, stored, middle⟩, text, rest⟩ := Option.bind_eq_some_iff.mp read
    rcases readStr_tells clean text with ⟨whole, complete⟩ | ⟨cut, incomplete⟩
    · simp only [whole.1, Bool.false_eq_true, if_false] at rest
      split at rest
      · cases rest
        rw [remaining_ok whole.1] at left
        rw [← left] at names
        exact .inl ⟨whole, names⟩
      · cases rest
        rw [remaining_failed rfl] at left
        rw [← left, decide_eq_true complete] at names
        exact .inr ⟨rfl, (fail_name whole.2).trans names⟩
    · simp only [cut.1, if_true] at rest
      cases rest
      rw [remaining_failed cut.1] at left
      rw [← left, decide_eq_false incomplete] at names
      exact .inr ⟨cut.1, cut.2.trans names⟩
  · simp only [readName, readStr_failed failed, Option.bind_eq_bind, Option.bind_some, failed,
      if_true] at read
    cases read
    exact .inr ⟨failed, blames⟩

theorem readName_keeps {buffer after : List UInt8} {final : Parser}
    (size : buffer.length = maxNameLen)
    (read : parser.readName buffer stage = some (after, final)) : parser.SameBuffers final := by
  obtain ⟨after', final', read', -, same, -⟩ := readName_spec parser buffer stage size
  rw [read] at read'
  cases read'
  exact same

theorem readHeader_tells {after : Parser} (ready : parser.Ready maxRecordSize)
    (clean : parser.Clean) (read : parser.readHeader = some after) :
    after.Tells 0 (invalidHeader parser.input) := by
  obtain ⟨same, -⟩ := readUint_spec parser 8 "seqnum"
  have first : (parser.readUint 8 "seqnum").2.Tells 3 (invalidHeader parser.input) := by
    rw [invalidHeader, wordEnd]
    by_cases enough : 8 ≤ parser.input.length
    · rw [readUint_complete _ clean.1 enough, if_pos enough]
      exact .inl ⟨clean, rfl⟩
    · have cut := readUint_cut "seqnum" clean (Nat.lt_of_not_le enough)
      rw [if_neg enough]
      exact .inr cut
  rcases word : parser.readUint 8 "seqnum" with ⟨seqnum, stamped⟩
  rw [word] at same first
  simp only [readHeader, word, Option.bind_eq_bind] at read
  obtain ⟨⟨ringName, second⟩, ring, read⟩ := Option.bind_eq_some_iff.mp read
  obtain ⟨⟨areaName, third⟩, area, read⟩ := Option.bind_eq_some_iff.mp read
  obtain ⟨⟨sectionName, fourth⟩, sect, read⟩ := Option.bind_eq_some_iff.mp read
  cases read
  have ringSize : stamped.ringName.length = maxNameLen := by rw [same.ringName, ready.ringName]
  have ringSame := readName_keeps ringSize ring
  have areaSize : second.areaName.length = maxNameLen := by
    rw [ringSame.areaName]
    exact (congrArg List.length same.areaName).trans ready.areaName
  have areaSame := readName_keeps areaSize area
  have sectSize : third.sectionName.length = maxNameLen := by
    rw [areaSame.sectionName]
    change second.sectionName.length = _
    rw [ringSame.sectionName]
    exact (congrArg List.length same.sectionName).trans ready.sectionName
  have named : second.Tells 2 (invalidHeader parser.input) := readName_tells ringSize ring first
  have placed : third.Tells 1 (invalidHeader parser.input) := readName_tells areaSize area named
  have sectioned : fourth.Tells 0 (invalidHeader parser.input) :=
    readName_tells sectSize sect placed
  exact sectioned

/-! ## Arguments -/

theorem readArg_tells {next : Nat} {after : Parser} (clean : parser.Clean)
    (set : parser.record.getArgType index ≠ .none)
    (read : parser.readArg version index offset = some (next, after)) :
    after.Clean ∨ after.Cut := by
  cases field : Field.ofType version (parser.record.getArgType index) with
  | text =>
      rw [readArg_text field] at read
      obtain ⟨⟨count, argval, middle⟩, text, read⟩ := Option.bind_eq_some_iff.mp read
      obtain ⟨record, -, read⟩ := Option.bind_eq_some_iff.mp read
      cases read
      exact (readStr_tells clean text).imp And.left And.left
  | block width =>
      rw [readArg_block field] at read
      obtain ⟨⟨count, argval, middle⟩, block, read⟩ := Option.bind_eq_some_iff.mp read
      obtain ⟨record, -, read⟩ := Option.bind_eq_some_iff.mp read
      cases read
      exact (readBlob_tells clean block).imp And.left And.left
  | word width =>
      have words : ∀ (width : Nat) (stage : String), (parser.readUint width stage).2.Clean ∨
          (parser.readUint width stage).2.Cut := by
        intro width stage
        by_cases enough : width ≤ parser.input.length
        · rw [readUint_complete _ clean.1 enough]
          exact .inl clean
        · exact .inr (readUint_cut stage clean (Nat.lt_of_not_le enough))
      rcases readArg_word offset set field with ⟨-, eq⟩ | ⟨-, eq⟩ <;>
      · rw [eq] at read
        obtain ⟨record, -, read⟩ := Option.bind_eq_some_iff.mp read
        cases read
        exact words _ _

theorem readArgsFrom_failed {count : Nat} (failed : parser.failed = true) :
    readArgsFrom version count index offset parser = some parser := by
  cases count <;> simp [readArgsFrom, failed]

/-- What a run of the argument loop that stays in its buffer makes of the input. -/
theorem readArgsFrom_reads {argtype : BitVec 64} {count : Nat} {after : Parser}
    (clean : parser.Clean) (range : index + count = Record.nargs)
    (place : Record.argvalSize ≤ offset) (room : offset ≤ parser.record.argval.length)
    (small : parser.record.argval.length < 2 ^ 32)
    (types : ∀ position, index ≤ position → position < Record.nargs →
      parser.record.getArgType position = typeIn argtype position)
    (read : readArgsFrom version count index offset parser = some after) :
    (after.Clean ∧ argsEnd version argtype count index parser.input = some after.input) ∨
      (after.Cut ∧ argsEnd version argtype count index parser.input = none) := by
  induction count generalizing index offset parser with
  | zero =>
      cases read
      exact .inl ⟨clean, rfl⟩
  | succ count ih =>
      have inside : index < Record.nargs := by omega
      have type := types index (Nat.le_refl _) inside
      by_cases unset : typeIn argtype index = .none
      · simp only [readArgsFrom, type, unset, or_true, if_true, Option.some.injEq] at read
        subst after
        exact .inl ⟨clean, by rw [argsEnd, if_pos unset]⟩
      · have set : parser.record.getArgType index ≠ .none := by rwa [type]
        simp only [readArgsFrom, clean.1, set, Bool.false_eq_true, or_self, if_false] at read
        obtain ⟨⟨next, middle⟩, arg, onward⟩ := Option.bind_eq_some_iff.mp read
        have told := readArg_tells clean set arg
        simp only [argsEnd, ← type, if_neg set]
        generalize fieldEq : Field.ofType version (parser.record.getArgType index) = field
        cases written : writeAt parser.record.argval offset (field.stored parser.input) with
        | none =>
            rw [readArg_fault clean.1 room (by rw [fieldEq]; exact written)] at arg
            cases arg
        | some argval =>
            have stored := writeAt_inside written
            by_cases whole : field.Whole parser.input
            · obtain ⟨after', read', done⟩ := readArg_whole clean.1 inside place small set
                (by rw [fieldEq]; exact whole) (by rw [fieldEq]; exact written)
              rw [arg, fieldEq] at read'
              cases read'
              have middleClean : middle.Clean :=
                told.resolve_right fun cut => Bool.false_ne_true (done.ok.symm.trans cut.1)
              rw [if_pos whole]
              have step := ih middleClean (by omega) (by omega) (by rw [done.length]; exact stored)
                (by rw [done.length]; exact small) (fun position lower upper => by
                  rw [done.others position upper (by omega)]
                  exact types position (by omega) upper) onward
              rw [done.input, fieldEq] at step
              exact step
            · obtain ⟨next', after', read', failed, -⟩ := readArg_partial clean.1 inside place small
                set (by rw [fieldEq]; exact whole) (by rw [fieldEq]; exact written)
              rw [arg] at read'
              cases read'
              have cut : middle.Cut :=
                told.resolve_left fun clean => Bool.false_ne_true (clean.1.symm.trans failed)
              rw [if_neg whole]
              rw [readArgsFrom_failed failed] at onward
              cases onward
              exact .inr ⟨cut, rfl⟩

/-- The type word and the arguments. -/
def argsPart (version : Version) (input : List UInt8) : Option (List UInt8) :=
  (wordEnd 8 input).bind (argsEnd version (BitVec.ofNat 64 (announced 8 input)) Record.nargs 0)

theorem readArgs_reads {after : Parser} (ready : parser.Ready maxRecordSize)
    (least : Record.byteSize ≤ maxRecordSize) (most : maxRecordSize < 2 ^ 32)
    (clean : parser.Clean) (read : parser.readArgs version = some after) :
    (after.Clean ∧ argsPart version parser.input = some after.input) ∨
      (after.Cut ∧ argsPart version parser.input = none) := by
  have size := ready.argval
  simp only [Record.byteSize, Record.headerSize] at least size
  rw [argsPart, wordEnd]
  by_cases enough : 8 ≤ parser.input.length
  · rw [readArgs_eq clean.1 (readUint_complete _ clean.1 enough)] at read
    rw [if_pos enough, Option.bind_some]
    exact @readArgsFrom_reads version { parser with
        input := parser.input.drop 8
        record.argtype := BitVec.ofNat 64 (announced 8 parser.input) } _ _ _ _ _
      clean (Nat.zero_add _) (Nat.le_refl _)
      (by change Record.argvalSize ≤ parser.record.argval.length; omega)
      (by change parser.record.argval.length < 2 ^ 32; omega) (fun _ _ _ => rfl) read
  · have cut := readUint_cut "argtype" clean (Nat.lt_of_not_le enough)
    rcases word : parser.readUint 8 "argtype" with ⟨argtype, first⟩
    rw [word] at cut
    rw [readArgs_eq clean.1 word] at read
    rw [if_neg enough]
    have stopped := @readArgsFrom_failed version { first with
      record.argtype := BitVec.ofNat 64 argtype } 0 Record.argvalSize Record.nargs cut.1
    cases stopped.symm.trans read
    exact .inr ⟨cut, rfl⟩

/-! ## Whole calls -/

theorem recordEnd_eq {input first second : List UInt8} (word : wordEnd 8 input = some first)
    (header : headerEnd first = some second) :
    recordEnd version input = argsPart version second := by
  simp only [recordEnd, argSection, word, header, argsPart, Option.bind_eq_bind, Option.bind_some]
  cases wordEnd 8 second <;> rfl

/-- What a call of `next` does that ends as the bytes say. -/
def Follows (version : Version) (maxRecordSize : Nat) (parser : Parser) : Reading → Prop
  | .record rest => ∃ data after, parser.next version = some (some data, after) ∧ after.Clean ∧
      after.Ready maxRecordSize ∧ after.input = rest
  | .ended => ∃ after, parser.next version = some (none, after) ∧ after.failed = false
  | .invalid => ∃ after, parser.next version = some (none, after) ∧ after.failed = true ∧
      after.blamesFormat = true
  | .cut => ∃ after, parser.next version = some (none, after) ∧ after.Cut
  | .overrun => parser.next version = none

theorem follows_headed {headed : Parser} (ready : headed.Ready maxRecordSize)
    (least : Record.byteSize ≤ maxRecordSize) (most : maxRecordSize < 2 ^ 32)
    (clean : headed.Clean) (done : parser.next version =
      (headed.readArgs version).bind fun final =>
        if final.failed then some (none, final) else some (some final.formatData, final))
    (returned : ∃ result after, parser.next version = some (result, after) ∧
      after.Ready maxRecordSize) :
    parser.Follows version maxRecordSize
      (match argsPart version headed.input with
        | some rest => .record rest
        | none => .cut) := by
  obtain ⟨result, after, called, afterReady⟩ := returned
  cases finished : headed.readArgs version with
  | none =>
      rw [done, finished] at called
      cases called
  | some final =>
      rw [finished, Option.bind_some] at done
      rcases readArgs_reads ready least most clean finished with
        ⟨finalClean, ended⟩ | ⟨cut, ended⟩
      · rw [finalClean.1] at done
        rw [done] at called
        cases called
        rw [ended]
        exact ⟨_, after, done, finalClean, afterReady, rfl⟩
      · rw [cut.1] at done
        rw [ended]
        exact ⟨final, done, cut⟩

/-- The bytes of the input say how a call ends. -/
theorem next_follows (version : Version) (ready : parser.Ready maxRecordSize)
    (least : Record.byteSize ≤ maxRecordSize) (most : maxRecordSize < 2 ^ 32)
    (clean : parser.Clean) :
    parser.Follows version maxRecordSize (reading version maxRecordSize parser.input) := by
  rw [reading]
  by_cases long : parser.input.length < 8
  · rw [if_pos long]
    obtain ⟨after, done, ok, -⟩ := next_short version clean.1 long
    exact ⟨after, done, ok⟩
  have enough : 8 ≤ parser.input.length := Nat.le_of_not_lt long
  rw [if_neg long]
  obtain ⟨fits, tight⟩ := next_spec version ready least most
  by_cases beyond : overruns version maxRecordSize parser.input = true
  · rw [if_pos beyond]
    refine tight clean.1 fun fit => ?_
    rw [← overruns_eq_false_iff, beyond] at fit
    cases fit
  · rw [if_neg beyond]
    have returned := fits (.inr (overruns_eq_false_iff.mp (Bool.eq_false_iff.mpr beyond)))
    have rest : wordEnd 8 parser.input = some parser.stamped.input := if_pos enough
    have stampedReady : parser.stamped.Ready maxRecordSize :=
      ⟨ready.argval, ready.ringName, ready.areaName, ready.sectionName⟩
    have stampedClean : parser.stamped.Clean := clean
    obtain ⟨headed, header, headedReady, left⟩ := readHeader_spec stampedReady
    have told := readHeader_tells stampedReady stampedClean header
    have done := next_stamped version clean.1 enough
    rw [header, Option.bind_some] at done
    rw [remaining_ok stampedClean.1, Option.bind_some] at left
    have names : invalidName parser.input = invalidHeader parser.stamped.input := by
      simp only [invalidName, rest]
    rcases told with ⟨headedClean, valid⟩ | ⟨failed, blames⟩
    · rw [remaining_ok headedClean.1] at left
      rw [recordEnd_eq rest left.symm, names, ← valid]
      exact follows_headed headedReady least most headedClean done returned
    · rw [remaining_failed failed] at left
      have ended : recordEnd version parser.input = none := by
        simp only [recordEnd, argSection, rest, ← left, Option.bind_eq_bind, Option.bind_some,
          Option.bind_none]
      rw [readArgs_failed failed, Option.bind_some, failed] at done
      rw [ended, names, ← blames]
      cases complete : headed.blamesFormat with
      | true => exact ⟨headed, done, failed, complete⟩
      | false => exact ⟨headed, done, failed, complete⟩

end Parser

end Hogl.Raw
